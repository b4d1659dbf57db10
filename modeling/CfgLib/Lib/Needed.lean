import CfgLib.Lib.Flow
import CfgLib.Lib.RankSelect
import Mathlib.Data.Set.Function
import Mathlib.Order.Bounds.Basic
import Mathlib.Logic.Relation

/-!
# Needed values

Code that reads and writes variables, run along the paths of a block flow.  A
variable is needed where some path leads to an instruction that has to stay and
reads it, or to a block end that hands it on.  Keeping exactly the instructions
that have to stay or write a needed variable keeps every value that a kept
instruction reads; no smaller set of instructions is closed under its own reads.
-/

namespace CfgLib.Lib

/-- What each instruction reads and writes, and whether it may throw. -/
structure Access (ι ν : Type) where
  uses : ι → List ν
  defs : ι → List ν
  throws : ι → Bool

variable {ι ν val : Type}

/-- A meaning of the instructions on environments: an instruction changes only what
it writes, and what it writes depends only on what it reads. -/
structure Access.Meaning (A : Access ι ν) (val : Type) where
  run : ι → (ν → val) → ν → val
  frame : ∀ a env v, v ∉ A.defs a → run a env v = env v
  local_of_uses : ∀ a env env', (∀ v ∈ A.uses a, env v = env' v) →
    ∀ v ∈ A.defs a, run a env v = run a env' v

/-- What is seen of a run: an instruction with the values it reads, an instruction
that throws instead of completing, the values a block's end hands on, and the
block that control goes to. -/
inductive Event (ι val : Type) where
  | ran (a : ι) (reads : List val)
  | raised (a : ι) (reads : List val) (target : Nat)
  | ended (finals : List val)
  | left (target : Nat)

namespace Flow

/-- One step of a run.  The position past the last instruction is the block's end,
the one after it has handed on the values of `out`. -/
inductive DataStep (F : Flow ι) {A : Access ι ν} (M : A.Meaning val) (out : Nat → List ν)
    (visible : Nat → Nat → Bool) : Transition ((Nat × Nat) × (ν → val)) (Event ι val)
  | exec {b i : Nat} {l : List ι} {a : ι} {env : ν → val} :
    F.code b = some l → l[i]? = some a →
      DataStep F M out visible ((b, i), env)
        (if visible b i then some (.ran a ((A.uses a).map env)) else none) ((b, i + 1), M.run a env)
  | raise {b i t : Nat} {l : List ι} {a : ι} {env : ν → val} :
    F.code b = some l → l[i]? = some a → A.throws a = true → F.unwind b t →
      DataStep F M out visible ((b, i), env) (some (.raised a ((A.uses a).map env) t)) ((t, 0), env)
  | finish {b i : Nat} {l : List ι} {env : ν → val} :
    F.code b = some l → i = l.length →
      DataStep F M out visible ((b, i), env) (some (.ended ((out b).map env))) ((b, i + 1), env)
  | leave {b i t : Nat} {l : List ι} {env : ν → val} :
    F.code b = some l → i = l.length + 1 → F.normal b t →
      DataStep F M out visible ((b, i), env) (some (.left t)) ((t, 0), env)

/-- The value of `v` is needed at a position.  The instructions of `stays` stay
whatever is needed. -/
inductive Needed (F : Flow ι) (A : Access ι ν) (out : Nat → List ν) (stays : Nat → Nat → Prop) :
    Nat → Nat → ν → Prop
  | out {b : Nat} {l : List ι} {v : ν} :
    F.code b = some l → v ∈ out b → Needed F A out stays b l.length v
  | ended {b : Nat} {l : List ι} {v : ν} :
    F.code b = some l → Needed F A out stays b (l.length + 1) v → Needed F A out stays b l.length v
  | leave {b t : Nat} {l : List ι} {v : ν} :
    F.code b = some l → F.normal b t → Needed F A out stays t 0 v →
      Needed F A out stays b (l.length + 1) v
  | raise {b i t : Nat} {l : List ι} {a : ι} {v : ν} :
    F.code b = some l → l[i]? = some a → A.throws a = true → F.unwind b t →
      Needed F A out stays t 0 v → Needed F A out stays b i v
  | staying {b i : Nat} {l : List ι} {a : ι} {v : ν} :
    F.code b = some l → l[i]? = some a → stays b i → v ∈ A.uses a → Needed F A out stays b i v
  | writing {b i : Nat} {l : List ι} {a : ι} {v w : ν} :
    F.code b = some l → l[i]? = some a → w ∈ A.defs a → Needed F A out stays b (i + 1) w →
      v ∈ A.uses a → Needed F A out stays b i v
  | past {b i : Nat} {l : List ι} {a : ι} {v : ν} :
    F.code b = some l → l[i]? = some a → v ∉ A.defs a → Needed F A out stays b (i + 1) v →
      Needed F A out stays b i v

end Flow

/-! ## Keeping some entries of a list -/

def keptEntries (keep : Nat → Bool) (l : List ι) : List ι :=
  (l.zipIdx.filter fun entry => keep entry.2).map (·.1)

theorem length_keptEntries (keep : Nat → Bool) (l : List ι) :
    (keptEntries keep l).length = rank keep l.length := by
  rw [keptEntries, List.length_map, length_zipIdx_filter]

theorem getElem?_keptEntries {keep : Nat → Bool} {l : List ι} {k : Nat} {a : ι} :
    (keptEntries keep l)[k]? = some a ↔ ∃ i, l[i]? = some a ∧ keep i = true ∧ rank keep i = k := by
  rw [keptEntries, getElem?_zipIdx_filter_map]
  constructor
  · intro h
    obtain ⟨i, hi, ha⟩ := Option.bind_eq_some_iff.mp h
    obtain ⟨_, hkeep, hrank⟩ := getElem?_select.mp hi
    exact ⟨i, by simpa using ha, hkeep, hrank⟩
  · rintro ⟨i, hi, hkeep, hrank⟩
    have hlt := (List.getElem?_eq_some_iff.mp hi).1
    rw [getElem?_select.mpr ⟨hlt, hkeep, hrank⟩]
    simpa using hi

/-! ## Pruning -/

namespace Flow

/-- `F'` is `F` with exactly the instructions kept that stay or write a needed
variable; an instruction that may throw stays. -/
structure Prunes (F : Flow ι) (A : Access ι ν) (out : Nat → List ν) (stays : Nat → Nat → Prop)
    (keep : Nat → Nat → Bool) (F' : Flow ι) : Prop where
  keep_iff : ∀ b l i a, F.code b = some l → l[i]? = some a →
    (keep b i = true ↔ stays b i ∨ ∃ w ∈ A.defs a, Needed F A out stays b (i + 1) w)
  throws_stays : ∀ b l i a, F.code b = some l → l[i]? = some a → A.throws a = true → stays b i
  code : ∀ b, F'.code b = (F.code b).map (keptEntries (keep b))
  normal : ∀ b t, F'.normal b t ↔ F.normal b t
  unwind : ∀ b t, F'.unwind b t ↔ F.unwind b t

variable {F F' : Flow ι} {A : Access ι ν} {out : Nat → List ν} {stays : Nat → Nat → Prop}
  {keep : Nat → Nat → Bool} {b i : Nat} {l : List ι} {a : ι}

theorem Prunes.of_stays (h : Prunes F A out stays keep F') (hc : F.code b = some l)
    (ha : l[i]? = some a) (hs : stays b i) : keep b i = true :=
  (h.keep_iff b l i a hc ha).mpr (Or.inl hs)

theorem Prunes.of_needed (h : Prunes F A out stays keep F') (hc : F.code b = some l)
    (ha : l[i]? = some a) {w : ν} (hw : w ∈ A.defs a) (hn : Needed F A out stays b (i + 1) w) :
    keep b i = true :=
  (h.keep_iff b l i a hc ha).mpr (Or.inr ⟨w, hw, hn⟩)

variable {p q : Nat × Nat} {K : Set (Nat × Nat)} {v : ν}

section

variable (h : Prunes F A out stays keep F')
include h

theorem Prunes.needed_of_uses (hc : F.code b = some l)
    (ha : l[i]? = some a) (hk : keep b i = true) (hv : v ∈ A.uses a) :
    Needed F A out stays b i v := by
  rcases (h.keep_iff b l i a hc ha).mp hk with hs | ⟨w, hw, hn⟩
  · exact .staying hc ha hs hv
  · exact .writing hc ha hw hn hv

theorem Prunes.not_defs (hc : F.code b = some l)
    (ha : l[i]? = some a) (hk : keep b i = false) (hn : Needed F A out stays b (i + 1) v) :
    v ∉ A.defs a := by
  intro hv
  rw [h.of_needed hc ha hv hn] at hk
  cases hk

theorem Prunes.code_some (hc : F.code b = some l) : F'.code b = some (keptEntries (keep b) l) := by
  rw [h.code, hc]
  rfl

theorem Prunes.code_old {l' : List ι}
    (hc : F'.code b = some l') : ∃ l, F.code b = some l ∧ l' = keptEntries (keep b) l := by
  rw [h.code] at hc
  obtain ⟨l, hl, rfl⟩ := Option.map_eq_some_iff.mp hc
  exact ⟨l, hl, rfl⟩

end

/-! ## Runs of the pruned flow -/

section Runs

variable {M : A.Meaning val} {env env' : ν → val} {b' i' : Nat}

def Agree (F : Flow ι) (A : Access ι ν) (out : Nat → List ν) (stays : Nat → Nat → Prop) (b i : Nat)
    (env env' : ν → val) : Prop :=
  ∀ v, Needed F A out stays b i v → env v = env' v

theorem Agree.map_uses (h : Prunes F A out stays keep F')
    (hag : Agree F A out stays b i env env') (hc : F.code b = some l) (ha : l[i]? = some a)
    (hk : keep b i = true) : (A.uses a).map env = (A.uses a).map env' :=
  List.map_congr_left fun v hv => hag v (h.needed_of_uses hc ha hk hv)

theorem Agree.run (h : Prunes F A out stays keep F') (hag : Agree F A out stays b i env env')
    (hc : F.code b = some l) (ha : l[i]? = some a) (hk : keep b i = true) :
    Agree F A out stays b (i + 1) (M.run a env) (M.run a env') := by
  intro v hv
  by_cases hd : v ∈ A.defs a
  · exact M.local_of_uses a env env' (fun w hw => hag w (h.needed_of_uses hc ha hk hw)) v hd
  · rw [M.frame a env v hd, M.frame a env' v hd]
    exact hag v (.past hc ha hd hv)

theorem Agree.drop (h : Prunes F A out stays keep F') (hag : Agree F A out stays b i env env')
    (hc : F.code b = some l) (ha : l[i]? = some a) (hk : keep b i = false) :
    Agree F A out stays b (i + 1) (M.run a env) env' := by
  intro v hv
  have hd := h.not_defs hc ha hk hv
  rw [M.frame a env v hd]
  exact hag v (.past hc ha hd hv)

inductive Pruned (F : Flow ι) (A : Access ι ν) (out : Nat → List ν) (stays : Nat → Nat → Prop)
    (keep : Nat → Nat → Bool) : (Nat × Nat) × (ν → val) → (Nat × Nat) × (ν → val) → Prop
  | inside {b i : Nat} {l : List ι} {env env' : ν → val} :
    F.code b = some l → i ≤ l.length → Agree F A out stays b i env env' →
      Pruned F A out stays keep ((b, i), env) ((b, rank (keep b) i), env')
  | ended {b : Nat} {l : List ι} {env env' : ν → val} :
    F.code b = some l → Agree F A out stays b (l.length + 1) env env' →
      Pruned F A out stays keep ((b, l.length + 1), env) ((b, rank (keep b) l.length + 1), env')
  | outside {b : Nat} {env env' : ν → val} :
    F.code b = none → Pruned F A out stays keep ((b, 0), env) ((b, 0), env')

theorem Pruned.start {t : Nat} (hag : Agree F A out stays t 0 env env') :
    Pruned F A out stays keep ((t, 0), env) ((t, 0), env') := by
  cases hc : F.code t with
  | none => exact .outside hc
  | some l => exact .inside hc (Nat.zero_le _) hag

/-- The instructions left to run before the end of the block. -/
def left (F : Flow ι) (p : (Nat × Nat) × (ν → val)) : Nat :=
  ((F.code p.1.1).getD []).length - p.1.2

section

variable (h : Prunes F A out stays keep F')
include h

theorem Prunes.forward : Simulation (F.DataStep M out keep) (F'.DataStep M out fun _ _ => true)
      (Pruned F A out stays keep) (left F) := by
  constructor
  intro p q o p' hrel hstep
  cases hrel with
  | @inside b i l env env' hc hi hag =>
    have hc' := h.code_some hc
    cases hstep with
    | @exec _ _ l₀ a _ hc₀ ha =>
      obtain rfl := Option.some.inj (hc.symm.trans hc₀)
      have hlt := (List.getElem?_eq_some_iff.mp ha).1
      cases hk : keep b i with
      | true =>
        left
        refine ⟨((b, rank (keep b) i + 1), M.run a env'), ?_, ?_⟩
        · have hstep' : F'.DataStep M out (fun _ _ => true) ((b, rank (keep b) i), env')
              (some (.ran a ((A.uses a).map env'))) ((b, rank (keep b) i + 1), M.run a env') :=
            .exec hc' (getElem?_keptEntries.mpr ⟨i, ha, hk, rfl⟩)
          simpa only [hk, if_true, hag.map_uses h hc ha hk] using Plus.single hstep'
        · have : Pruned F A out stays keep ((b, i + 1), M.run a env)
              ((b, rank (keep b) (i + 1)), M.run a env') :=
            .inside hc (Nat.succ_le_of_lt hlt) (hag.run h hc ha hk)
          rwa [rank_succ, if_pos hk] at this
      | false =>
        right
        refine ⟨rfl, ?_, ?_⟩
        · have : Pruned F A out stays keep ((b, i + 1), M.run a env)
              ((b, rank (keep b) (i + 1)), env') :=
            .inside hc (Nat.succ_le_of_lt hlt) (hag.drop h hc ha hk)
          rwa [rank_succ, hk] at this
        · simp only [Flow.left, hc, Option.getD_some]
          omega
    | @raise _ _ t l₀ a _ hc₀ ha ht hu =>
      obtain rfl := Option.some.inj (hc.symm.trans hc₀)
      have hk := h.of_stays hc ha (h.throws_stays b l i a hc ha ht)
      left
      refine ⟨((t, 0), env'), ?_, .start fun v hv => hag v (.raise hc ha ht hu hv)⟩
      rw [hag.map_uses h hc ha hk]
      exact Plus.single (.raise hc' (getElem?_keptEntries.mpr ⟨i, ha, hk, rfl⟩) ht
        ((h.unwind b t).mpr hu))
    | @finish _ _ l₀ _ hc₀ hend =>
      obtain rfl := Option.some.inj (hc.symm.trans hc₀)
      subst hend
      left
      refine ⟨((b, rank (keep b) l.length + 1), env'), ?_, .ended hc fun v hv => hag v (.ended hc hv)⟩
      have hfinals : (out b).map env = (out b).map env' :=
        List.map_congr_left fun v hv => hag v (.out hc hv)
      rw [hfinals]
      exact Plus.single (.finish hc' (length_keptEntries _ _).symm)
    | @leave _ _ t l₀ _ hc₀ hend hn =>
      obtain rfl := Option.some.inj (hc.symm.trans hc₀)
      omega
  | @ended b l env env' hc hag =>
    have hc' := h.code_some hc
    cases hstep with
    | @exec _ _ l₀ a _ hc₀ ha =>
      obtain rfl := Option.some.inj (hc.symm.trans hc₀)
      have := (List.getElem?_eq_some_iff.mp ha).1
      omega
    | @raise _ _ t l₀ a _ hc₀ ha _ _ =>
      obtain rfl := Option.some.inj (hc.symm.trans hc₀)
      have := (List.getElem?_eq_some_iff.mp ha).1
      omega
    | @finish _ _ l₀ _ hc₀ hend =>
      obtain rfl := Option.some.inj (hc.symm.trans hc₀)
      omega
    | @leave _ _ t l₀ _ hc₀ hend hn =>
      left
      refine ⟨((t, 0), env'), ?_, .start fun v hv => hag v (.leave hc hn hv)⟩
      refine Plus.single (.leave hc' ?_ ((h.normal b t).mpr hn))
      rw [length_keptEntries]
  | @outside b env env' hc =>
    cases hstep with
    | exec hc₀ _ => rw [hc] at hc₀; cases hc₀
    | raise hc₀ _ _ _ => rw [hc] at hc₀; cases hc₀
    | finish hc₀ _ => rw [hc] at hc₀; cases hc₀
    | leave hc₀ _ _ => rw [hc] at hc₀; cases hc₀

theorem Prunes.skip (hc : F.code b = some l) {j : Nat}
    (hij : i ≤ j) (hj : j ≤ l.length) (hrank : rank (keep b) j = rank (keep b) i)
    (hag : Agree F A out stays b i env env') :
    ∃ env₁, Run (F.DataStep M out keep) ((b, i), env) [] ((b, j), env₁) ∧
      Agree F A out stays b j env₁ env' := by
  induction j, hij using Nat.le_induction with
  | base => exact ⟨env, .refl _, hag⟩
  | succ j hij ih =>
    have hle := rank_mono (p := keep b) hij
    have hstep := rank_succ (p := keep b) j
    have hk : keep b j = false := by
      by_contra hk
      rw [if_pos (by simpa using hk)] at hstep
      omega
    rw [if_neg (by simp [hk])] at hstep
    obtain ⟨env₁, hrun, hag₁⟩ := ih (by omega) (by omega)
    obtain ⟨a, ha⟩ : ∃ a, l[j]? = some a := ⟨_, List.getElem?_eq_getElem (by omega)⟩
    have hexec : F.DataStep M out keep ((b, j), env₁) none ((b, j + 1), M.run a env₁) := by
      have : F.DataStep M out keep ((b, j), env₁)
          (if keep b j then some (.ran a ((A.uses a).map env₁)) else none)
          ((b, j + 1), M.run a env₁) := .exec hc ha
      rwa [hk] at this
    exact ⟨_, hrun.trans (.step hexec (.refl _)), hag₁.drop h hc ha hk⟩

theorem Prunes.backward : Simulation (F'.DataStep M out fun _ _ => true) (F.DataStep M out keep)
      (fun q p => Pruned F A out stays keep p q) (fun _ => 0) := by
  constructor
  intro q p o q' hrel hstep
  left
  cases hrel with
  | @inside b i l env env' hc hi hag =>
    -- the next kept instruction, reached through dropped ones
    have hnext : ∀ a, (keptEntries (keep b) l)[rank (keep b) i]? = some a →
        ∃ j env₁, l[j]? = some a ∧ keep b j = true ∧ rank (keep b) j = rank (keep b) i ∧
          Run (F.DataStep M out keep) ((b, i), env) [] ((b, j), env₁) ∧
          Agree F A out stays b j env₁ env' := by
      intro a ha
      obtain ⟨j, hj, hk, hrank⟩ := getElem?_keptEntries.mp ha
      have hlt := (List.getElem?_eq_some_iff.mp hj).1
      have hij : i ≤ j := by
        by_contra hc
        have := rank_lt hk (show j < i by omega)
        omega
      obtain ⟨env₁, hrun, hag₁⟩ := h.skip (M := M) hc hij (Nat.le_of_lt hlt) hrank hag
      exact ⟨j, env₁, hj, hk, hrank, hrun, hag₁⟩
    cases hstep with
    | @exec _ _ l' a _ hc₀ ha =>
      obtain rfl := Option.some.inj ((h.code_some hc).symm.trans hc₀)
      obtain ⟨j, env₁, hj, hk, hrank, hrun, hag₁⟩ := hnext a ha
      have hlt := (List.getElem?_eq_some_iff.mp hj).1
      refine ⟨((b, j + 1), M.run a env₁), ?_, ?_⟩
      · have hexec : F.DataStep M out keep ((b, j), env₁)
            (if keep b j then some (.ran a ((A.uses a).map env₁)) else none)
            ((b, j + 1), M.run a env₁) := .exec hc hj
        rw [if_pos hk, hag₁.map_uses h hc hj hk] at hexec
        exact hrun.then_plus (Plus.single hexec)
      · have : Pruned F A out stays keep ((b, j + 1), M.run a env₁)
            ((b, rank (keep b) (j + 1)), M.run a env') :=
          .inside hc (Nat.succ_le_of_lt hlt) (hag₁.run h hc hj hk)
        rwa [rank_succ, if_pos hk, hrank] at this
    | @raise _ _ t l' a _ hc₀ ha ht hu =>
      obtain rfl := Option.some.inj ((h.code_some hc).symm.trans hc₀)
      obtain ⟨j, env₁, hj, hk, hrank, hrun, hag₁⟩ := hnext a ha
      have hu₀ := (h.unwind b t).mp hu
      refine ⟨((t, 0), env₁), ?_, .start fun v hv => hag₁ v (.raise hc hj ht hu₀ hv)⟩
      rw [← hag₁.map_uses h hc hj hk]
      exact hrun.then_plus (Plus.single (.raise hc hj ht hu₀))
    | @finish _ _ l' _ hc₀ hend =>
      obtain rfl := Option.some.inj ((h.code_some hc).symm.trans hc₀)
      rw [length_keptEntries] at hend
      obtain ⟨env₁, hrun, hag₁⟩ := h.skip (M := M) hc hi (Nat.le_refl _) hend.symm hag
      refine ⟨((b, l.length + 1), env₁), ?_, ?_⟩
      · have hfinals : (out b).map env' = (out b).map env₁ :=
          List.map_congr_left fun v hv => (hag₁ v (.out hc hv)).symm
        rw [hfinals]
        exact hrun.then_plus (Plus.single (.finish hc rfl))
      · rw [hend]
        exact .ended hc fun v hv => hag₁ v (.ended hc hv)
    | @leave _ _ t l' _ hc₀ hend hn =>
      obtain rfl := Option.some.inj ((h.code_some hc).symm.trans hc₀)
      have := rank_mono (p := keep b) hi
      rw [length_keptEntries] at hend
      omega
  | @ended b l env env' hc hag =>
    have hc' := h.code_some hc
    cases hstep with
    | @exec _ _ l' a _ hc₀ ha =>
      obtain rfl := Option.some.inj (hc'.symm.trans hc₀)
      have := (List.getElem?_eq_some_iff.mp ha).1
      rw [length_keptEntries] at this
      omega
    | @raise _ _ t l' a _ hc₀ ha _ _ =>
      obtain rfl := Option.some.inj (hc'.symm.trans hc₀)
      have := (List.getElem?_eq_some_iff.mp ha).1
      rw [length_keptEntries] at this
      omega
    | @finish _ _ l' _ hc₀ hend =>
      obtain rfl := Option.some.inj (hc'.symm.trans hc₀)
      rw [length_keptEntries] at hend
      omega
    | @leave _ _ t l' _ hc₀ hend hn =>
      have hn₀ := (h.normal b t).mp hn
      exact ⟨((t, 0), env), Plus.single (.leave hc rfl hn₀),
        .start fun v hv => hag v (.leave hc hn₀ hv)⟩
  | @outside b env env' hc =>
    have hc' : F'.code b = none := by rw [h.code, hc]; rfl
    cases hstep with
    | exec hc₀ _ => rw [hc'] at hc₀; cases hc₀
    | raise hc₀ _ _ _ => rw [hc'] at hc₀; cases hc₀
    | finish hc₀ _ => rw [hc'] at hc₀; cases hc₀
    | leave hc₀ _ _ => rw [hc'] at hc₀; cases hc₀

/-- From any block the kept instructions run in the same order on the same values,
along the same blocks, and the ends of blocks hand on the same values. -/
theorem Prunes.sameTraces (M : A.Meaning val) (b : Nat) (env : ν → val) :
    SameTraces (F.DataStep M out keep) ((b, 0), env) (F'.DataStep M out fun _ _ => true)
      ((b, 0), env) :=
  h.forward.sameTraces h.backward (.start fun _ _ => rfl)

end

end Runs

/-! ## The kept instructions are the least closed set -/

/-- One step of a path on which `v` is not written. -/
inductive Carries (F : Flow ι) (A : Access ι ν) (v : ν) : Nat × Nat → Nat × Nat → Prop
  | exec {b i : Nat} {l : List ι} {a : ι} :
    F.code b = some l → l[i]? = some a → v ∉ A.defs a → Carries F A v (b, i) (b, i + 1)
  | raise {b i t : Nat} {l : List ι} {a : ι} :
    F.code b = some l → l[i]? = some a → A.throws a = true → F.unwind b t →
      Carries F A v (b, i) (t, 0)
  | finish {b i : Nat} {l : List ι} :
    F.code b = some l → i = l.length → Carries F A v (b, i) (b, i + 1)
  | leave {b i t : Nat} {l : List ι} :
    F.code b = some l → i = l.length + 1 → F.normal b t → Carries F A v (b, i) (t, 0)

def Reaches (F : Flow ι) (A : Access ι ν) (v : ν) (p q : Nat × Nat) : Prop :=
  Relation.ReflTransGen (Carries F A v) p q

/-- `p` is the place of instruction `a`. -/
def At (F : Flow ι) (p : Nat × Nat) (a : ι) : Prop :=
  ∃ l, F.code p.1 = some l ∧ l[p.2]? = some a

/-- `p` is the end of a block that hands on `v`. -/
def HandsOn (F : Flow ι) (out : Nat → List ν) (p : Nat × Nat) (v : ν) : Prop :=
  ∃ l, F.code p.1 = some l ∧ p.2 = l.length ∧ v ∈ out p.1

/-- A set of instructions that holds those that stay and every definition that
reaches a read of the set or the end of a block that hands it on. -/
structure Closed (F : Flow ι) (A : Access ι ν) (out : Nat → List ν) (stays : Nat → Nat → Prop)
    (K : Set (Nat × Nat)) : Prop where
  stays : ∀ p a, F.At p a → stays p.1 p.2 → p ∈ K
  reads : ∀ p a q a' v, F.At p a → v ∈ A.defs a → F.Reaches A v (p.1, p.2 + 1) q → F.At q a' →
    q ∈ K → v ∈ A.uses a' → p ∈ K
  finals : ∀ p a q v, F.At p a → v ∈ A.defs a → F.Reaches A v (p.1, p.2 + 1) q →
    F.HandsOn out q v → p ∈ K

def kept (F : Flow ι) (keep : Nat → Nat → Bool) : Set (Nat × Nat) :=
  {p | (∃ a, F.At p a) ∧ keep p.1 p.2 = true}

/-- The value of `v` at `p` reaches a read of `K` or a block end that hands it on. -/
def Served (F : Flow ι) (A : Access ι ν) (out : Nat → List ν) (K : Set (Nat × Nat)) (p : Nat × Nat)
    (v : ν) : Prop :=
  (∃ q a, F.Reaches A v p q ∧ F.At q a ∧ q ∈ K ∧ v ∈ A.uses a) ∨
    ∃ q, F.Reaches A v p q ∧ F.HandsOn out q v

theorem Served.step (hs : Served F A out K q v) (hstep : Carries F A v p q) : Served F A out K p v := by
  rcases hs with ⟨r, a, hr, hrest⟩ | ⟨r, hr, hrest⟩
  · exact Or.inl ⟨r, a, hr.head hstep, hrest⟩
  · exact Or.inr ⟨r, hr.head hstep, hrest⟩

theorem Closed.mem_of_served (hK : Closed F A out stays K) (hp : F.At p a) (hv : v ∈ A.defs a)
    (hs : Served F A out K (p.1, p.2 + 1) v) : p ∈ K := by
  rcases hs with ⟨q, a', hr, hq, hqK, hu⟩ | ⟨q, hr, hq⟩
  · exact hK.reads p a q a' v hp hv hr hq hqK hu
  · exact hK.finals p a q v hp hv hr hq

theorem Needed.served (hK : Closed F A out stays K) (hn : Needed F A out stays b i v) : Served F A out K (b, i) v := by
  induction hn with
  | out hc hv => exact Or.inr ⟨_, .refl, _, hc, rfl, hv⟩
  | ended hc _ ih => exact ih.step (.finish hc rfl)
  | leave hc hn _ ih => exact ih.step (.leave hc rfl hn)
  | raise hc ha ht hu _ ih => exact ih.step (.raise hc ha ht hu)
  | staying hc ha hs hv => exact Or.inl ⟨_, _, .refl, ⟨_, hc, ha⟩, hK.stays _ _ ⟨_, hc, ha⟩ hs, hv⟩
  | writing hc ha hw _ hv ih =>
    exact Or.inl ⟨_, _, .refl, ⟨_, hc, ha⟩, hK.mem_of_served ⟨_, hc, ha⟩ hw ih, hv⟩
  | past hc ha hd _ ih => exact ih.step (.exec hc ha hd)

theorem Needed.of_carries (hn : Needed F A out stays q.1 q.2 v)
    (hstep : Carries F A v p q) : Needed F A out stays p.1 p.2 v := by
  cases hstep with
  | exec hc ha hd => exact .past hc ha hd hn
  | raise hc ha ht hu => exact .raise hc ha ht hu hn
  | finish hc hend =>
    subst hend
    exact .ended hc hn
  | leave hc hend hl =>
    subst hend
    exact .leave hc hl hn

theorem Needed.of_reaches (hn : Needed F A out stays q.1 q.2 v)
    (hr : F.Reaches A v p q) : Needed F A out stays p.1 p.2 v := by
  induction hr using Relation.ReflTransGen.head_induction_on with
  | refl => exact hn
  | head hstep _ ih => exact ih.of_carries hstep

theorem Prunes.closed_kept (h : Prunes F A out stays keep F') :
    Closed F A out stays (F.kept keep) where
  stays := by
    rintro p a ⟨l, hc, ha⟩ hs
    exact ⟨⟨a, l, hc, ha⟩, h.of_stays hc ha hs⟩
  reads := by
    rintro p a q a' v ⟨l, hc, ha⟩ hv hr ⟨l', hc', ha'⟩ ⟨_, hk⟩ hu
    have hn : Needed F A out stays q.1 q.2 v := h.needed_of_uses hc' ha' hk hu
    exact ⟨⟨a, l, hc, ha⟩, h.of_needed hc ha hv (hn.of_reaches hr)⟩
  finals := by
    rintro p a q v ⟨l, hc, ha⟩ hv hr ⟨l', hc', hend, hout⟩
    have hn : Needed F A out stays q.1 q.2 v := hend ▸ .out hc' hout
    exact ⟨⟨a, l, hc, ha⟩, h.of_needed hc ha hv (hn.of_reaches hr)⟩

theorem Prunes.isLeast (h : Prunes F A out stays keep F') :
    IsLeast {K | Closed F A out stays K} (F.kept keep) := by
  refine ⟨h.closed_kept, ?_⟩
  rintro K hK p ⟨⟨a, l, hc, ha⟩, hk⟩
  rcases (h.keep_iff _ l _ a hc ha).mp hk with hs | ⟨w, hw, hn⟩
  · exact Closed.stays hK p a ⟨l, hc, ha⟩ hs
  · exact Closed.mem_of_served hK ⟨l, hc, ha⟩ hw (hn.served hK)

/-! ## Pruning again -/

/-- Where a position of a block of `n` instructions goes. -/
def place (keep : Nat → Bool) (n i : Nat) : Nat :=
  if i ≤ n then rank keep i else rank keep n + 1

theorem place_of_at (keep : Nat → Bool) (ha : l[i]? = some a) :
    place keep l.length i = rank keep i ∧ place keep l.length (i + 1) = rank keep (i + 1) := by
  have hlt := (List.getElem?_eq_some_iff.mp ha).1
  exact ⟨if_pos (Nat.le_of_lt hlt), if_pos hlt⟩

theorem Needed.exists_code (hn : Needed F A out stays b i v) : ∃ l, F.code b = some l := by
  cases hn <;> exact ⟨_, by assumption⟩

theorem Prunes.needed (h : Prunes F A out stays keep F') {stays' : Nat → Nat → Prop}
    (hstays : ∀ b l i a, F.code b = some l → l[i]? = some a → stays b i → stays' b (rank (keep b) i))
    (hn : Needed F A out stays b i v) (hc : F.code b = some l) :
    Needed F' A out stays' b (place (keep b) l.length i) v := by
  induction hn generalizing l with
  | @out b l₀ v hc₀ hv =>
    obtain rfl := Option.some.inj (hc.symm.trans hc₀)
    have : Needed F' A out stays' b (keptEntries (keep b) l).length v :=
      .out (h.code_some hc) hv
    rwa [length_keptEntries, ← show place (keep b) l.length l.length = rank (keep b) l.length from
      if_pos (Nat.le_refl _)] at this
  | @ended b l₀ v hc₀ _ ih =>
    obtain rfl := Option.some.inj (hc.symm.trans hc₀)
    have hih := ih hc
    rw [place, if_neg (by omega), ← length_keptEntries] at hih
    rw [place, if_pos (Nat.le_refl _), ← length_keptEntries]
    exact .ended (h.code_some hc) hih
  | @leave b t l₀ v hc₀ hl hn ih =>
    obtain rfl := Option.some.inj (hc.symm.trans hc₀)
    obtain ⟨l₁, hl₁⟩ := hn.exists_code
    have hih := ih hl₁
    rw [place, if_pos (Nat.zero_le _), rank_zero] at hih
    rw [place, if_neg (by omega), ← length_keptEntries]
    exact .leave (h.code_some hc) ((h.normal b t).mpr hl) hih
  | @raise b i t l₀ a v hc₀ ha ht hu hn ih =>
    obtain rfl := Option.some.inj (hc.symm.trans hc₀)
    obtain ⟨l₁, hl₁⟩ := hn.exists_code
    have hih := ih hl₁
    rw [place, if_pos (Nat.zero_le _), rank_zero] at hih
    have hk := h.of_stays hc ha (h.throws_stays b l i a hc ha ht)
    rw [(place_of_at (keep b) ha).1]
    exact .raise (h.code_some hc) (getElem?_keptEntries.mpr ⟨i, ha, hk, rfl⟩) ht
      ((h.unwind b t).mpr hu) hih
  | @staying b i l₀ a v hc₀ ha hs hv =>
    obtain rfl := Option.some.inj (hc.symm.trans hc₀)
    have hk := h.of_stays hc ha hs
    rw [(place_of_at (keep b) ha).1]
    exact .staying (h.code_some hc) (getElem?_keptEntries.mpr ⟨i, ha, hk, rfl⟩)
      (hstays b l i a hc ha hs) hv
  | @writing b i l₀ a v w hc₀ ha hw hn hv ih =>
    obtain rfl := Option.some.inj (hc.symm.trans hc₀)
    have hk := h.of_needed hc ha hw hn
    have hih := ih hc
    rw [(place_of_at (keep b) ha).2, rank_succ, if_pos hk] at hih
    rw [(place_of_at (keep b) ha).1]
    exact .writing (h.code_some hc) (getElem?_keptEntries.mpr ⟨i, ha, hk, rfl⟩) hw hih hv
  | @past b i l₀ a v hc₀ ha hd hn ih =>
    obtain rfl := Option.some.inj (hc.symm.trans hc₀)
    have hih := ih hc
    rw [(place_of_at (keep b) ha).2] at hih
    rw [(place_of_at (keep b) ha).1]
    cases hk : keep b i with
    | true =>
      rw [rank_succ, if_pos hk] at hih
      exact .past (h.code_some hc) (getElem?_keptEntries.mpr ⟨i, ha, hk, rfl⟩) hd hih
    | false =>
      rw [rank_succ, hk] at hih
      exact hih

theorem Prunes.again (h : Prunes F A out stays keep F') {stays' : Nat → Nat → Prop}
    {keep' : Nat → Nat → Bool} {F'' : Flow ι} (h' : Prunes F' A out stays' keep' F'')
    (hstays : ∀ b l i a, F.code b = some l → l[i]? = some a → stays b i →
      stays' b (rank (keep b) i))
    {k : Nat} (hc' : F'.code b = some l) (ha : l[k]? = some a) : keep' b k = true := by
  obtain ⟨l₀, hc, rfl⟩ := h.code_old hc'
  obtain ⟨i, hi, hk, rfl⟩ := getElem?_keptEntries.mp ha
  rcases (h.keep_iff b l₀ i a hc hi).mp hk with hs | ⟨w, hw, hn⟩
  · exact h'.of_stays hc' ha (hstays b l₀ i a hc hi hs)
  · have hn' := h.needed hstays hn hc
    rw [(place_of_at (keep b) hi).2, rank_succ, if_pos hk] at hn'
    exact h'.of_needed hc' ha hw hn'

end Flow

end CfgLib.Lib
