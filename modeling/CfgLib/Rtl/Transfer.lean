import CfgLib.Lib.Fold
import CfgLib.Rtl.Consts
import Mathlib.Data.List.Induction

/-!
# One record of the analysis follows the machine

`ir/rtl/facts/resolution/transfer.rs`: when the constants hold of the state before a
record, the staged values and writes hold of every run of its statements.
-/

namespace CfgLib.Rtl

open CfgLib.Lib List Function

variable {ρ ω : Type} [DecidableEq ρ] {rootWidth : ρ → Nat} {roots : List ρ}
  {width : Nat → Nat} {state : ConstState} {before : ρ → Value} {consts : ValueConsts}
  {values values' : Nat → Value} {defined : List Nat}

/-! ## Reads and constants -/

theorem constantIndex_spec (h : consts.Hold width values defined) {index candidates chosen : Nat}
    (hs : constantIndex consts width index candidates = some chosen) :
    chosen < candidates ∧ (values index).IsNumber chosen := by
  obtain ⟨hget, hlt⟩ := Option.filter_eq_some_iff.mp hs
  obtain ⟨words, hwords, hnumber⟩ := Option.bind_eq_some_iff.mp hget
  refine ⟨of_decide_eq_true hlt, fun k => ?_⟩
  rw [← h.bits index words hwords k]
  exact testBit_toUsize hnumber k

theorem sameOff_update (values : Nat → Value) (result : Nat) (v : Value) :
    SameOff [result] values (update values result v) := by
  intro handle hhandle
  exact update_of_ne (fun heq => hhandle (mem_singleton.mpr heq)) v values

variable {fold : Fold ω} {inst position : Nat} {place : Place ρ} {r : ResolvedSelection} {eval : Semantics ω}
  {s : Staging} {v : Value} {delta : ρ → Value}

theorem Value.IsNumber.unique {m n : Nat} (hm : v.IsNumber m) (hn : v.IsNumber n) : m = n :=
  Nat.eq_of_testBit_eq fun k => (hm k).symm.trans (hn k)

variable {args : List Nat} {words : List Word} {result : Nat} {statement : Statement ρ ω} {root : ρ}
   {delta' : ρ → Value}

theorem readPlace_hold (hstate : KnownBy rootWidth roots state.get before) (h : consts.Hold width values defined)
    (hroot : place.root ∈ roots) (hinside : place.Inside rootWidth)
    (hwidth : place.slice.width = width result) (hfresh : result ∉ defined) :
    (readPlace roots state consts result place).Hold width
      (update values result ((before place.root).cut place.slice)) (defined ++ [result]) := by
  unfold readPlace
  cases hget : state.get (indexOfNamed roots place.root) with
  | none =>
    refine h.frame (sameOff_update values result _) fun handle hmem => ?_
    rw [mem_singleton.mp hmem]
    exact hfresh
  | some words =>
    obtain ⟨_, hholds⟩ := hstate place.root hroot words hget
    refine h.insert ?_ (sameOff_update values result _) ?_
    · rw [length_copyBits, length_zeros, hwidth]
    · intro k
      rw [update_self, bitAt_copyBits_zeros]
      unfold Value.cut
      by_cases hk : k < place.slice.width
      · have hlast : place.slice.offset + k < rootWidth place.root := by
          have hle : place.slice.offset + place.slice.width ≤ rootWidth place.root := hinside
          omega
        rw [hholds _ hlast]
      · rw [decide_eq_false hk, Bool.false_and, Bool.false_and]

/-! ## Operators -/

def pieces : List Word → List Nat → List (List Word)
  | _, [] => []
  | out, width :: widths => out.take (wordsFor width) :: pieces (out.drop (wordsFor width)) widths

/-- The folder computes its operators exactly: over constants that stand for the operands,
its words stand for what the operator computes. -/
def Fold.Exact (fold : Fold ω) (eval : Semantics ω) : Prop :=
  ∀ operator operands widths out args results,
    fold.fold operator operands widths = some out →
    List.Forall₂ (fun operand arg => Represents operand.1 arg.1 ∧ operand.2 = arg.2)
      operands args →
    eval operator args widths results → List.Forall₂ Represents (pieces out widths) results

theorem insertResults_hold {out : List Word} {results : List Nat} {start : Nat}
    (h : consts.Hold width values defined) (hnodup : results.Nodup)
    (hfresh : ∀ result ∈ results, result ∉ defined) (hsame : SameOff results values values')
    (hlength : start + ((results.map width).map wordsFor).sum ≤ out.length)
    (hbits : List.Forall₂ Represents (pieces (out.drop start) (results.map width))
      (results.map values')) :
    (insertResults out consts start (results.map fun result => (result, width result))).Hold width
      values' (defined ++ results) := by
  induction results generalizing consts values defined start with
  | nil =>
    exact h.frame hsame fun handle hmem => by cases hmem
  | cons result rest ih =>
    obtain ⟨hnew, hnodup⟩ := nodup_cons.mp hnodup
    simp only [map_cons, sum_cons] at hlength
    simp only [map_cons, pieces, forall₂_cons] at hbits
    obtain ⟨hfirst, hbits⟩ := hbits
    have hone : (consts.insert result ((out.drop start).take (wordsFor (width result)))).Hold width
        (update values result (values' result)) (defined ++ [result]) := by
      refine h.insert ?_ (sameOff_update values result _) ?_
      · rw [length_take, length_drop]
        omega
      · rw [update_self]
        exact hfirst
    rw [drop_drop] at hbits
    have hrest := ih hone hnodup ?_ ?_ (by omega) hbits
    · rw [append_assoc] at hrest
      exact hrest
    · intro other hother
      rw [mem_append, mem_singleton, not_or]
      refine ⟨hfresh other (mem_cons_of_mem _ hother), ?_⟩
      rintro rfl
      exact hnew hother
    · intro handle hhandle
      by_cases heq : handle = result
      · rw [heq, update_self]
      · rw [update_of_ne heq]
        exact hsame handle (not_mem_cons_of_ne_of_not_mem heq hhandle)

theorem operands_represent (h : consts.Hold width values defined) (hall : args.all consts.contains = true) :
    List.Forall₂ (fun (operand : List Word × Nat) (arg : Value × Nat) =>
        Represents operand.1 arg.1 ∧ operand.2 = arg.2)
      (args.filterMap fun arg => (consts.get arg (width arg)).map fun words => (words, width arg))
      (args.map fun arg => (values arg, width arg)) := by
  induction args with
  | nil => exact .nil
  | cons arg rest ih =>
    rw [all_cons, Bool.and_eq_true] at hall
    obtain ⟨start, hstart⟩ := Option.isSome_iff_exists.mp hall.1
    obtain ⟨words, hwords⟩ : ∃ words, consts.get arg (width arg) = some words := by
      unfold ValueConsts.get
      rw [hstart]
      exact ⟨_, rfl⟩
    rw [filterMap_cons, hwords, Option.map_some, map_cons]
    exact .cons ⟨h.bits arg words hwords, rfl⟩ (ih hall.2)

theorem applyOperator_hold (hexact : fold.Exact eval)
    (h : consts.Hold width values defined) {results : ValueRange} {operator : ω}
    (hnodup : results.values.Nodup) (hfresh : ∀ result ∈ results.values, result ∉ defined)
    (heval : eval operator (args.map fun arg => (values arg, width arg)) (results.values.map width)
      (results.values.map values')) (hsame : SameOff results.values values values') :
    (applyOperator fold width consts results operator args).Hold width values'
      (defined ++ results.values) := by
  unfold applyOperator
  split
  · next hall =>
    simp only
    cases hfold : fold.fold operator (args.filterMap fun arg =>
        (consts.get arg (width arg)).map fun words => (words, width arg))
        (results.values.map width) with
    | none => exact h.frame hsame hfresh
    | some out =>
      have hlength := fold.length_fold _ _ _ _ hfold
      refine insertResults_hold h hnodup hfresh hsame (by omega) ?_
      rw [drop_zero]
      exact hexact _ _ _ _ _ _ hfold (operands_represent h hall) heval
  · exact h.frame hsame hfresh

/-! ## Writes -/

theorem assemble_spec (hstate : KnownBy rootWidth roots state.get before)
    (h : consts.Hold width values defined) {plan : List SpanAction}
    (hroot : root ∈ roots) (hinside : ∀ part ∈ plan, part.span.last ≤ rootWidth root)
    (hcovers : ∀ k < rootWidth root, ∃ part ∈ plan, part.span.offset ≤ k ∧ k < part.span.last)
    (hgives : ∀ part ∈ plan, part.Gives (before root) values v)
    (hs : assemble roots rootWidth width state consts root plan = some words) :
    words.length = wordsFor (rootWidth root) ∧ HoldsWords (rootWidth root) words v := by
  have hfold := foldlM_option (I := fun done words => (∀ part ∈ done, part ∈ plan) →
    words.length = wordsFor (rootWidth root) ∧ ∀ part ∈ done, ∀ k, part.span.offset ≤ k →
      k < part.span.last → bitAt words k = v k) ?_ ?_ hs
  · obtain ⟨hlength, hbits⟩ := hfold fun part hpart => hpart
    refine ⟨hlength, fun k hk => ?_⟩
    obtain ⟨part, hpart, hle, hlt⟩ := hcovers k hk
    exact hbits part hpart k hle hlt
  · intro done part words words' hdone hstep hmem
    obtain ⟨hlength, hbits⟩ := hdone fun x hx => hmem x (mem_append_left _ hx)
    have hpart : part ∈ plan := hmem part (mem_append_right _ mem_cons_self)
    have hgive := hgives part hpart
    have hlast := hinside part hpart
    have hroom : part.span.offset + part.span.width ≤ 64 * words.length := by
      rw [hlength]
      exact hlast.trans (width_le_wordsFor _)
    -- the span takes the bits it should, and the copy leaves the others alone
    have hcopied : ∃ source offset, words' =
        copyBits words part.span.offset source offset part.span.width ∧
        ∀ k, part.span.offset ≤ k → k < part.span.last →
          bitAt source (offset + (k - part.span.offset)) = v k := by
      unfold assembleSpan at hstep
      unfold SpanAction.Gives at hgive
      split at hstep
      · next hact =>
        obtain ⟨source, hsource, rfl⟩ := Option.map_eq_some_iff.mp hstep
        refine ⟨source, _, rfl, fun k hle hlt => ?_⟩
        have hk := hgive k hle hlt
        rw [hact] at hk
        rw [hk, Nat.add_sub_cancel' hle]
        exact (hstate root hroot source hsource).2 k (hlt.trans_le hlast)
      · next value first hact =>
        obtain ⟨source, hsource, rfl⟩ := Option.map_eq_some_iff.mp hstep
        refine ⟨source, _, rfl, fun k hle hlt => ?_⟩
        have hk := hgive k hle hlt
        rw [hact] at hk
        rw [hk]
        exact h.bits value source hsource _
      · cases hstep
    obtain ⟨source, offset, rfl, htaken⟩ := hcopied
    refine ⟨(length_copyBits ..).trans hlength, ?_⟩
    intro part' hpart' k hle hlt
    rw [bitAt_copyBits hroom]
    split
    · next hin => exact htaken k hin.1 hin.2
    · next hout =>
      rcases mem_append.mp hpart' with hpart' | hpart'
      · exact hbits part' hpart' k hle hlt
      · cases mem_singleton.mp hpart'
        exact absurd ⟨hle, hlt⟩ hout
  · exact fun _ => ⟨length_zeros _, fun part hpart => by cases hpart⟩

theorem staged_append (state : ConstState) (pending : List (Nat × Option (List Word))) (i : Nat)
    (value : Option (List Word)) (r : Nat) :
    staged state (pending ++ [(i, value)]) r = if r = i then value else staged state pending r := by
  unfold staged
  rw [reverse_append, reverse_singleton, singleton_append]
  by_cases hr : r = i
  · rw [find?_cons_of_pos (by simp [hr]), if_pos hr]
  · rw [find?_cons_of_neg (by simp [Ne.symm hr]), if_neg hr]

theorem get_commit (state : ConstState) (pending : List (Nat × Option (List Word))) (r : Nat) :
    (commit state pending).get r = staged state pending r := by
  induction pending using List.reverseRecOn with
  | nil => rfl
  | append_singleton pending write ih =>
    obtain ⟨i, value⟩ := write
    rw [staged_append]
    unfold commit at ih ⊢
    rw [foldl_append, foldl_cons, foldl_nil]
    cases value with
    | none =>
      change (ConstState.remove _ i).get r = _
      rw [ConstState.get_remove, ih]
    | some value =>
      change (ConstState.set _ i value).get r = _
      rw [ConstState.get_set, ih]

theorem splice_spec (hdelta : KnownBy rootWidth roots (staged state s.pending) delta)
    (h : s.values.Hold width values defined) {value : Nat}
    (hroot : place.root ∈ roots) (hinside : place.Inside rootWidth)
    (hs : splice roots rootWidth width state s place value = some words) :
    words.length = wordsFor (rootWidth place.root) ∧ HoldsWords (rootWidth place.root) words
        ((delta place.root).put place.slice (values value)) := by
  unfold splice at hs
  obtain ⟨input, hinput, hs⟩ := Option.bind_eq_some_iff.mp hs
  obtain ⟨base, hbase, hs⟩ := Option.bind_eq_some_iff.mp hs
  cases hs
  -- outside the range the words start from what the root holds
  have hstart : base.length = wordsFor (rootWidth place.root) ∧ ∀ k < rootWidth place.root,
      ¬ (place.slice.offset ≤ k ∧ k < place.slice.last) → bitAt base k = delta place.root k := by
    unfold spliceBase at hbase
    split at hbase
    · next found hfound =>
      cases hbase
      obtain ⟨hlength, hholds⟩ := hdelta place.root hroot base hfound
      exact ⟨hlength, fun k hk _ => hholds k hk⟩
    · split at hbase
      · next hwhole =>
        cases hbase
        refine ⟨length_zeros _, fun k hk hout => absurd ⟨?_, ?_⟩ hout⟩
        · rw [hwhole]
          exact Nat.zero_le k
        · rw [hwhole]
          exact hk.trans_eq (Nat.zero_add _).symm
      · cases hbase
  have hroom : place.slice.offset + place.slice.width ≤ 64 * base.length := by
    rw [hstart.1]
    exact le_trans hinside (width_le_wordsFor _)
  refine ⟨(length_copyBits ..).trans hstart.1, fun k hk => ?_⟩
  rw [bitAt_copyBits hroom, Nat.zero_add]
  unfold Value.put BitSlice.last
  by_cases hin : place.slice.offset ≤ k ∧ k < place.slice.offset + place.slice.width
  · rw [if_pos hin, if_pos hin]
    exact h.bits value input hinput _
  · rw [if_neg hin, if_neg hin]
    exact hstart.2 k hk hin

theorem forget_candidates (roots : List ρ) (state : ConstState) (candidates : List (Place ρ))
    (s : Staging) :
    (candidates.foldl (fun s place => stageRoot s (indexOfNamed roots place.root) none) s).values =
        s.values ∧ ∀ r, staged state (candidates.foldl
          (fun s place => stageRoot s (indexOfNamed roots place.root) none) s).pending r =
        if ∃ place ∈ candidates, r = indexOfNamed roots place.root then none
        else staged state s.pending r := by
  induction candidates generalizing s with
  | nil => exact ⟨rfl, fun r => (if_neg (by simp)).symm⟩
  | cons place rest ih =>
    obtain ⟨hvalues, hstaged⟩ := ih (stageRoot s (indexOfNamed roots place.root) none)
    refine ⟨hvalues, fun r => (hstaged r).trans ?_⟩
    unfold stageRoot
    rw [staged_append]
    by_cases hfirst : r = indexOfNamed roots place.root
    · rw [if_pos hfirst, ite_self, if_pos ⟨place, mem_cons_self, hfirst⟩]
    · rw [if_neg hfirst]
      refine if_congr ?_ rfl rfl
      simp [hfirst]

/-! ## Statements -/

/-- The staging of a record follows a run of its statements. -/
structure Staging.Tracks (rootWidth : ρ → Nat) (roots : List ρ) (width : Nat → Nat)
    (state : ConstState) (s : Staging) (values : Nat → Value) (delta : ρ → Value)
    (defined : List Nat) : Prop where
  values : s.values.Hold width values defined
  delta : KnownBy rootWidth roots (staged state s.pending) delta

theorem Staging.Tracks.read (h : s.Tracks rootWidth roots width state values delta defined)
    (hstate : KnownBy rootWidth roots state.get before) (hroot : place.root ∈ roots)
    (htyped : place.Inside rootWidth ∧ place.slice.width = width result) (hfresh : result ∉ defined) :
    Staging.Tracks rootWidth roots width state
      { s with values := readPlace roots state s.values result place }
      (update values result ((before place.root).cut place.slice)) delta (defined ++ [result]) :=
  ⟨readPlace_hold hstate h.values hroot htyped.1 htyped.2 hfresh, h.delta⟩

theorem Staging.Tracks.unknown (h : s.Tracks rootWidth roots width state values delta defined) {new : List Nat}
    (hsame : SameOff new values values') (hfresh : ∀ result ∈ new, result ∉ defined) :
    s.Tracks rootWidth roots width state values' delta (defined ++ new) :=
  ⟨h.values.frame hsame hfresh, h.delta⟩

theorem Staging.Tracks.write (h : s.Tracks rootWidth roots width state values delta defined)
    {known : Option (List Word)} (hknown : ∀ words, known = some words → words.length = wordsFor (rootWidth root) ∧
      HoldsWords (rootWidth root) words v) :
    (stageRoot s (indexOfNamed roots root) known).Tracks rootWidth roots width state values
      (update delta root v) defined :=
  ⟨h.values, h.delta.update (staged_append state s.pending _ known) hknown⟩

theorem Staging.Tracks.note (h : s.Tracks rootWidth roots width state values delta defined) (inst statement : Nat)
    (chosen : Option Nat) :
    (Rtl.note s inst statement chosen).Tracks rootWidth roots width state values delta defined := by
  cases chosen with
  | none => exact h
  | some candidate => exact ⟨h.values, h.delta⟩

omit [DecidableEq ρ] in
theorem place_of_chosen (h : consts.Hold width values defined) {index k : Nat}
    {candidates : List (Place ρ)} {place chosen : Place ρ} (hplace : candidates[k]? = some place)
    (hk : (values index).IsNumber k)
    (hs : (constantIndex consts width index candidates.length).bind (candidates[·]?) =
      some chosen) : chosen = place := by
  obtain ⟨c, hc, hget⟩ := Option.bind_eq_some_iff.mp hs
  rw [(constantIndex_spec h hc).2.unique hk, hplace] at hget
  exact (Option.some.inj hget).symm

theorem stageWrite_tracks (hstate : KnownBy rootWidth roots state.get before)
    (h : s.Tracks rootWidth roots width state values delta defined)
    {target : WriteTarget ρ} (hcovers : target.Covers rootWidth) (hroots : ∀ root ∈ target.roots, root ∈ roots)
    (hstep : StatementStep eval width before values delta (.write target) values' delta') :
    (stageWrite roots rootWidth width state inst position s target).Tracks rootWidth roots width
      state values' delta' defined := by
  cases hstep with
  | @write root plan v hgives =>
    exact h.write fun words hwords => assemble_spec hstate h.values
      (hroots root mem_cons_self) hcovers.1 hcovers.2 hgives hwords
  | @writeIndexed index k value candidates place hplace hk =>
    have hmem : place ∈ candidates := mem_of_getElem? hplace
    have hroot : place.root ∈ roots := hroots _ (mem_map_of_mem hmem)
    simp only [stageWrite]
    split
    · next chosen hchosen =>
      obtain rfl := place_of_chosen h.values hplace hk hchosen
      refine (h.note inst position _).write fun words hwords => ?_
      exact splice_spec h.delta h.values hroot (hcovers chosen hmem) hwords
    · next hnone =>
      obtain ⟨hvalues, hstaged⟩ := forget_candidates roots state candidates s
      refine ⟨by rw [hvalues]; exact h.values, fun r hr words hwords => ?_⟩
      rw [hstaged] at hwords
      split at hwords
      · cases hwords
      next hout =>
      have hne : r ≠ place.root := fun heq => hout ⟨place, hmem, by rw [heq]⟩
      rw [update_of_ne hne]
      exact h.delta r hr words hwords
  | @writeSparse bank key value slice v =>
    exact h.write fun words hwords => by cases hwords

theorem runStatement_tracks (hexact : fold.Exact eval) (hstate : KnownBy rootWidth roots state.get before)
    (h : s.Tracks rootWidth roots width state values delta defined)
    (htyped : statement.Typed rootWidth width) (hroots : ∀ root ∈ statement.roots, root ∈ roots)
    (hnodup : statement.results.Nodup) (hfresh : ∀ result ∈ statement.results, result ∉ defined)
    (hstep : StatementStep eval width before values delta statement values' delta') :
    (runStatement roots fold rootWidth width state inst position s statement).Tracks rootWidth roots
      width state values' delta' (defined ++ statement.results) := by
  cases statement with
  | read result source =>
    have hnew : result ∉ defined := hfresh result mem_cons_self
    cases hstep with
    | read => exact h.read hstate (hroots _ mem_cons_self) htyped hnew
    | @readIndexed _ index k candidates place hplace hk =>
      have hmem : place ∈ candidates := mem_of_getElem? hplace
      simp only [runStatement]
      split
      · next chosen hchosen =>
        obtain rfl := place_of_chosen h.values hplace hk hchosen
        exact (h.note inst position _).read hstate (hroots _ (mem_map_of_mem hmem))
          (htyped _ hmem) hnew
      · exact (h.note inst position _).unknown (sameOff_update values result _) hfresh
    | readSparse v => exact h.unknown (sameOff_update values result v) hfresh
  | constant result words declared =>
    cases hstep
    refine ⟨h.values.insert ?_ (sameOff_update values result _) ?_, h.delta⟩
    · rw [length_copyBits, length_zeros, htyped]
    · intro k
      rw [update_self, bitAt_copyBits_zeros]
      rfl
  | apply results operator args =>
    cases hstep with
    | apply heval hsame => exact ⟨applyOperator_hold hexact h.values hnodup hfresh heval hsame, h.delta⟩
  | nondet result declared =>
    cases hstep with
    | nondet v => exact h.unknown (sameOff_update values result v) hfresh
  | effect results args =>
    cases hstep with
    | effect hsame => exact h.unknown hsame hfresh
  | raise guard payload binds =>
    cases hstep with
    | pass _ => exact h.unknown (fun _ _ => rfl) hfresh
  | write target =>
    rw [show (Statement.write target : Statement ρ ω).results = [] from rfl, append_nil]
    exact stageWrite_tracks hstate h htyped hroots hstep

/-! ## Reports -/

/-- A selection with a constant index at this point. -/
def Staging.Resolves (s : Staging) (width : Nat → Nat) (statement : Statement ρ ω)
    (chosen : Nat) : Prop :=
  ∃ index candidates, statement.index = some index ∧
    constantIndex s.values width index candidates = some chosen

theorem mem_report_note {statement : Nat} {chosen : Option Nat} (hr : r ∈ (note s inst statement chosen).report) :
    r ∈ s.report ∨ r.inst = inst ∧ r.statement = statement ∧ chosen = some r.candidate := by
  cases chosen with
  | none => exact Or.inl hr
  | some candidate =>
    rcases mem_append.mp hr with hr | hr
    · exact Or.inl hr
    · cases mem_singleton.mp hr
      exact Or.inr ⟨rfl, rfl, rfl⟩

theorem mem_report_runStatement
    (hr : r ∈ (runStatement roots fold rootWidth width state inst position s statement).report) :
    r ∈ s.report ∨
      r.inst = inst ∧ r.statement = position ∧ s.Resolves width statement r.candidate := by
  cases statement with
  | read result source =>
    cases source with
    | direct place => exact Or.inl hr
    | finiteIndexed index candidates =>
      have hnote : r ∈ (note s inst position
          (constantIndex s.values width index candidates.length)).report := by
        simp only [runStatement] at hr
        split at hr <;> exact hr
      refine (mem_report_note hnote).imp_right ?_
      intro ⟨hinst, hposition, hchosen⟩
      exact ⟨hinst, hposition, index, candidates.length, rfl, hchosen⟩
    | sparseIndexed bank key slice => exact Or.inl hr
  | write target =>
    cases target with
    | root root plan => exact Or.inl hr
    | finiteIndexed index candidates value =>
      simp only [runStatement, stageWrite] at hr
      split at hr
      · refine (mem_report_note hr).imp_right ?_
        intro ⟨hinst, hposition, hchosen⟩
        exact ⟨hinst, hposition, index, candidates.length, rfl, hchosen⟩
      · have hreport : ∀ (l : List (Place ρ)) (s : Staging), (l.foldl
            (fun s place => stageRoot s (indexOfNamed roots place.root) none) s).report =
              s.report := by
          intro l
          induction l with
          | nil => exact fun _ => rfl
          | cons place rest ih => exact fun s => ih _
        rw [hreport] at hr
        exact Or.inl hr
    | sparseIndexed bank key slice value => exact Or.inl hr
  | constant result words declared => exact Or.inl hr
  | apply results operator args => exact Or.inl hr
  | nondet result declared => exact Or.inl hr
  | effect results args => exact Or.inl hr
  | raise guard payload binds => exact Or.inl hr

/-! ## Records -/

theorem runStatements_append (fold : Fold ω) (inst : Nat) (l l' : List (Statement ρ ω))
    (position : Nat) (s : Staging) :
    runStatements roots fold rootWidth width state inst position (l ++ l') s =
      runStatements roots fold rootWidth width state inst (position + l.length) l'
        (runStatements roots fold rootWidth width state inst position l s) := by
  induction l generalizing position s with
  | nil => rfl
  | cons statement rest ih =>
    rw [cons_append, runStatements, ih, length_cons]
    congr 1
    omega

theorem mem_report_runStatements {statements : List (Statement ρ ω)}
    (hr : r ∈ (runStatements roots fold rootWidth width state inst position statements s).report) :
    r ∈ s.report ∨ ∃ j statement, statements[j]? = some statement ∧ r.inst = inst ∧
      r.statement = position + j ∧ (runStatements roots fold rootWidth width state inst position
        (statements.take j) s).Resolves width statement r.candidate := by
  induction statements generalizing position s with
  | nil => exact Or.inl hr
  | cons statement rest ih =>
    rcases ih hr with hr | ⟨j, later, hj, hinst, hposition, hresolves⟩
    · refine (mem_report_runStatement hr).imp_right ?_
      intro ⟨hinst, hposition, hresolves⟩
      exact ⟨0, statement, rfl, hinst, hposition, hresolves⟩
    · exact Or.inr ⟨j + 1, later, hj, hinst, by omega, hresolves⟩

end CfgLib.Rtl
