import CfgLib.Lib.Fold
import CfgLib.Lib.Lowering
import Mathlib.Algebra.Ring.Nat
import Mathlib.Data.List.Dedup
import Mathlib.Order.Bounds.Basic
import Mathlib.Order.MinMax
import Mathlib.Logic.Relation

/-!
# Coldness classes

`graph/coldness.rs`: how often each node of a rooted graph runs, in three classes.  The
propagation lowers classes until every bound holds, and reads each bound off counters of
the values of a node's records.
-/

namespace CfgLib

open CfgLib.Lib Relation List

/-- How often a node runs; a colder class is a smaller class. -/
inductive ColdClass where
  | never
  | rare
  | normal
  deriving DecidableEq, Repr

namespace ColdClass

def level : ColdClass → Nat
  | never => 0
  | rare => 1
  | normal => 2

theorem level_injective : Function.Injective level := by
  intro a b h
  cases a <;> cases b <;> first | rfl | cases h

instance : LinearOrder ColdClass := LinearOrder.lift' level level_injective

theorem le_iff_level {a b : ColdClass} : a ≤ b ↔ a.level ≤ b.level := Iff.rfl

theorem lt_iff_level {a b : ColdClass} : a < b ↔ a.level < b.level := Iff.rfl

instance : BoundedOrder ColdClass where
  top := normal
  le_top a := by cases a <;> decide
  bot := never
  bot_le a := by cases a <;> decide

theorem never_le (a : ColdClass) : never ≤ a := bot_le

theorem le_normal (a : ColdClass) : a ≤ normal := le_top

theorem min_mono_right {a b : ColdClass} (cap : ColdClass) (h : a ≤ b) : min cap a ≤ min cap b :=
  min_le_min_left cap h

end ColdClass

/-- A rooted graph with ordered successor records, in both directions, and the inputs of the
propagation. -/
structure ColdnessGraph where
  nodeBound : Nat
  entry : Nat
  /-- Every node that the entry reaches; a node that appears again is skipped. -/
  reachable : List Nat
  /-- The successor records of a node as target and cap. -/
  records : Nat → List (Nat × ColdClass)
  /-- The records that name a node as source and cap. -/
  incoming : Nat → List (Nat × ColdClass)
  seed : Nat → ColdClass
  ends : Nat → Bool

namespace ColdnessGraph

/-- What the trait's contract asks for. -/
structure Lawful (g : ColdnessGraph) : Prop where
  reachable_lt : ∀ n ∈ g.reachable, n < g.nodeBound
  mem_reachable : ∀ n, n ∈ g.reachable ↔
    ReflTransGen (fun a b => ∃ cap, (b, cap) ∈ g.records a) g.entry n
  incoming_lt : ∀ n ∈ g.reachable, ∀ r ∈ g.incoming n, r.1 < g.nodeBound
  incoming_mirrors : ∀ n ∈ g.reachable, ∀ s ∈ g.reachable, ∀ cap,
    (g.incoming n).count (s, cap) = (g.records s).count (n, cap)

end ColdnessGraph

/-! ## Counting records -/

/-- How many records of one node have at least a given value, each in 32 bits. -/
structure Tally where
  atLeastRare : Nat
  normal : Nat
  deriving DecidableEq, Repr

namespace Tally

open ColdClass (rare never)

/-- Count one more record; `none` is the panic when a counter overflows. -/
def add (t : Tally) (value : ColdClass) : Option Tally :=
  let t' : Tally := ⟨t.atLeastRare + (decide (value ≥ rare)).toNat,
    t.normal + (decide (value ≥ ColdClass.normal)).toNat⟩
  if t'.atLeastRare < 2 ^ 32 ∧ t'.normal < 2 ^ 32 then some t' else none

/-- Count one record less; `none` is the panic when a counter underflows. -/
def remove (t : Tally) (value : ColdClass) : Option Tally :=
  let rares := (decide (value ≥ rare)).toNat
  let normals := (decide (value ≥ ColdClass.normal)).toNat
  if rares ≤ t.atLeastRare ∧ normals ≤ t.normal then
    some ⟨t.atLeastRare - rares, t.normal - normals⟩
  else none

def replace (t : Tally) (old new : ColdClass) : Option Tally := (t.remove old).bind fun t => t.add new

/-- The hottest counted value, or `never` when no record is counted. -/
def hottest (t : Tally) : ColdClass :=
  if t.normal > 0 then .normal else if t.atLeastRare > 0 then .rare else .never

def ofValues (values : List ColdClass) : Tally :=
  ⟨values.countP fun v => decide (v ≥ rare), values.countP fun v => decide (v ≥ ColdClass.normal)⟩

theorem ofValues_perm {l l' : List ColdClass} (h : l.Perm l') : ofValues l = ofValues l' := by
  unfold ofValues
  rw [h.countP_eq, h.countP_eq]

theorem normal_ofValues_le (l : List ColdClass) : (ofValues l).normal ≤ (ofValues l).atLeastRare := by
  refine countP_mono_left fun v _ hv => ?_
  have hrare : rare ≤ ColdClass.normal := by decide
  exact decide_eq_true (hrare.trans (of_decide_eq_true hv))

theorem ofValues_cons (v : ColdClass) (l : List ColdClass) :
    ofValues (v :: l) = ⟨(ofValues l).atLeastRare + (decide (v ≥ rare)).toNat,
      (ofValues l).normal + (decide (v ≥ ColdClass.normal)).toNat⟩ := by
  unfold ofValues
  rw [countP_cons, countP_cons]
  cases v <;> rfl

theorem add_ofValues (l : List ColdClass) (v : ColdClass) : (ofValues l).add v =
    if (ofValues (v :: l)).atLeastRare < 2 ^ 32 then some (ofValues (v :: l)) else none := by
  have hle := normal_ofValues_le (v :: l)
  rw [ofValues_cons] at hle ⊢
  unfold add
  by_cases h : (ofValues l).atLeastRare + (decide (v ≥ rare)).toNat < 2 ^ 32
  · rw [if_pos h, if_pos ⟨h, lt_of_le_of_lt hle h⟩]
  · rw [if_neg h, if_neg fun hc => h hc.1]

theorem remove_ofValues (l : List ColdClass) (v : ColdClass) :
    (ofValues (v :: l)).remove v = some (ofValues l) := by
  rw [ofValues_cons]
  unfold remove
  rw [if_pos ⟨Nat.le_add_left _ _, Nat.le_add_left _ _⟩]
  simp only [Nat.add_sub_cancel]

/-- Lowering the value of a counted record neither underflows nor overflows. -/
theorem replace_ofValues {l : List ColdClass} {old new : ColdClass} (hle : new ≤ old)
    (hfits : (ofValues (old :: l)).atLeastRare < 2 ^ 32) :
    (ofValues (old :: l)).replace old new = some (ofValues (new :: l)) ∧
      (ofValues (new :: l)).atLeastRare ≤ (ofValues (old :: l)).atLeastRare := by
  have hnew : (ofValues (new :: l)).atLeastRare ≤ (ofValues (old :: l)).atLeastRare := by
    rw [ofValues_cons, ofValues_cons]
    refine Nat.add_le_add_left ?_ _
    cases new <;> cases old <;> first | decide | exact absurd hle (by decide)
  refine ⟨?_, hnew⟩
  rw [replace, remove_ofValues, Option.bind_some, add_ofValues, if_pos (lt_of_le_of_lt hnew hfits)]

end Tally

/-- The hottest of a list of classes, `never` when there is none. -/
def hottest (values : List ColdClass) : ColdClass := values.foldr max .never

theorem le_hottest_iff {x : ColdClass} {values : List ColdClass} :
    x ≤ hottest values ↔ x = .never ∨ ∃ v ∈ values, x ≤ v := by
  induction values with
  | nil =>
    change x ≤ ⊥ ↔ x = ⊥ ∨ _
    simp
  | cons v values ih =>
    rw [hottest, foldr_cons, le_max_iff, ← hottest, ih]
    simp only [mem_cons, exists_eq_or_imp]
    tauto

theorem hottest_ofValues (values : List ColdClass) :
    (Tally.ofValues values).hottest = hottest values := by
  refine eq_of_forall_le_iff fun x => ?_
  rw [le_hottest_iff]
  unfold Tally.hottest Tally.ofValues
  simp only [gt_iff_lt, countP_pos_iff, decide_eq_true_eq, ge_iff_le]
  split
  · next h =>
    obtain ⟨v, hv, hn⟩ := h
    exact ⟨fun _ => Or.inr ⟨v, hv, (ColdClass.le_normal x).trans hn⟩, fun _ => ColdClass.le_normal x⟩
  · next hnormal =>
    split
    · next h =>
      obtain ⟨v, hv, hr⟩ := h
      refine ⟨fun hx => Or.inr ⟨v, hv, hx.trans hr⟩, ?_⟩
      intro hx
      by_contra hgt
      have hx' : x = .normal := by
        cases x <;> first | rfl | exact absurd (by decide) hgt
      subst hx'
      rcases hx with hx | ⟨v, hv, hx⟩
      · cases hx
      · exact hnormal ⟨v, hv, hx⟩
    · next hrare =>
      constructor
      · intro hx
        exact Or.inl (le_bot_iff.mp hx)
      · intro hx
        rcases hx with rfl | ⟨v, hv, hx⟩
        · exact le_refl _
        · cases x with
          | never => exact le_refl _
          | rare => exact absurd ⟨v, hv, hx⟩ hrare
          | normal => exact absurd ⟨v, hv, hx⟩ hnormal

/-! ## The propagation -/

namespace Coldness

/-- Where a node stands in the propagation. -/
inductive Mark where
  | unreached
  | idle
  | queued
  deriving DecidableEq, Repr

/-- The two counters of a node: of the records that leave it and of those that enter it. -/
inductive Side where
  | leaving
  | entering
  deriving DecidableEq, Repr

/-- The propagation state of one node slot. -/
structure Slot where
  cls : ColdClass
  mark : Mark
  hasRecords : Bool
  leaving : Tally
  entering : Tally
  deriving DecidableEq, Repr

def Slot.unreached : Slot := ⟨.never, .unreached, false, ⟨0, 0⟩, ⟨0, 0⟩⟩

def Slot.tally (slot : Slot) : Side → Tally
  | .leaving => slot.leaving
  | .entering => slot.entering

def Slot.setTally (slot : Slot) (tally : Tally) : Side → Slot
  | .leaving => { slot with leaving := tally }
  | .entering => { slot with entering := tally }

/-- One run of the propagation over one graph. -/
structure Propagation where
  slots : List Slot
  queue : List Nat

namespace Propagation

variable (g : ColdnessGraph)

/-- Start a node at its seed and queue it, the first time it is met. -/
def start (s : Propagation) (node : Nat) : Option Propagation := do
  let slot ← s.slots[node]?
  if slot.mark = .unreached then
    some ⟨s.slots.set node { slot with cls := g.seed node, mark := .queued }, s.queue ++ [node]⟩
  else some s

def count (source : Nat) (sourceClass : ColdClass) (s : Propagation) (record : Nat × ColdClass) :
    Option Propagation := do
  let targetClass := (← s.slots[record.1]?).cls
  let slot ← s.slots[source]?
  let leaving ← slot.leaving.add (min record.2 targetClass)
  let slots := s.slots.set source { slot with hasRecords := true, leaving }
  let target ← slots[record.1]?
  let entering ← target.entering.add (min record.2 sourceClass)
  some { s with slots := slots.set record.1 { target with entering } }

def countRecords (s : Propagation) (source : Nat) : Option Propagation := do
  let slot ← s.slots[source]?
  (g.records source).foldlM (count source slot.cls) s

def new : Option Propagation := do
  let s ← g.reachable.foldlM (start g) ⟨List.replicate g.nodeBound .unreached, []⟩
  s.queue.foldlM (countRecords g) s

/-- Queue a node unless it waits already. -/
def push (s : Propagation) (node : Nat) : Option Propagation := do
  let slot ← s.slots[node]?
  if slot.mark = .idle then some ⟨s.slots.set node { slot with mark := .queued }, s.queue ++ [node]⟩
  else some s

/-- The hottest class that the bounds (B) and (F) allow a node. -/
def bound (node : Nat) (slot : Slot) : ColdClass :=
  let bound :=
    if slot.hasRecords then
      if slot.leaving.hottest = .never ∧ g.ends node then .rare else slot.leaving.hottest
    else .normal
  if node ≠ g.entry then min bound slot.entering.hottest else bound

/-- Replace the value of one record in a counter of the node at its near end. -/
def retally (side : Side) (old new : ColdClass) (s : Propagation) (record : Nat × ColdClass) :
    Option Propagation :=
  if min record.2 old = min record.2 new then some s
  else do
    let slot ← s.slots[record.1]?
    let tally ← (slot.tally side).replace (min record.2 old) (min record.2 new)
    Propagation.push { s with slots := s.slots.set record.1 (slot.setTally tally side) } record.1

/-- The same for a record that may come from a node the entry does not reach. -/
def retallySource (old new : ColdClass) (s : Propagation) (record : Nat × ColdClass) :
    Option Propagation := do
  let slot ← s.slots[record.1]?
  if slot.mark = .unreached then some s else retally .leaving old new s record

/-- Lower the class of a node, update the counters of the nodes that its records join, and queue
those nodes. -/
def lower (s : Propagation) (node : Nat) (cls : ColdClass) : Option Propagation := do
  let slot ← s.slots[node]?
  let s := { s with slots := s.slots.set node { slot with cls } }
  let s ← (g.records node).foldlM (retally .entering slot.cls cls) s
  (g.incoming node).foldlM (retallySource slot.cls cls) s

/-- Take a node off the queue and lower it to its bound. -/
def visit (s : Propagation) (node : Nat) : Option Propagation := do
  let slot ← s.slots[node]?
  let slot := { slot with mark := .idle }
  let s := { s with slots := s.slots.set node slot }
  if bound g node slot < slot.cls then lower g s node (bound g node slot) else some s

/-- Lower classes until every bound holds; `none` when the fuel runs out, or on a panic. -/
def run : Nat → Propagation → Option Propagation
  | 0, _ => none
  | fuel + 1, s =>
    match s.queue with
    | [] => some s
    | node :: queue => do
      let s ← visit g { s with queue } node
      run fuel s

end Propagation

end Coldness

def ColdnessGraph.compute (fuel : Nat) (g : ColdnessGraph) : Option (List ColdClass) := do
  let s ← Coldness.Propagation.new g
  let s ← s.run g fuel
  some (s.slots.map Coldness.Slot.cls)

def coldClass (classes : List ColdClass) (node : Nat) : ColdClass := (classes[node]?).getD .never

/-! ## Bounds -/

namespace ColdnessGraph

/-- One record between reachable nodes. -/
structure Link where
  source : Nat
  target : Nat
  cap : ColdClass
  deriving DecidableEq, Repr

def linksOf (g : ColdnessGraph) (source : Nat) : List Link :=
  (g.records source).map fun r => ⟨source, r.1, r.2⟩

/-- Every record of a reachable node, once. -/
def links (g : ColdnessGraph) : List Link := g.reachable.dedup.flatMap g.linksOf

end ColdnessGraph

open ColdnessGraph (Link)

/-- The end of a record at the node whose counter holds its value. -/
def Coldness.Side.near : Coldness.Side → Link → Nat
  | .leaving, link => link.source
  | .entering, link => link.target

/-- The end of a record whose class its value depends on. -/
def Coldness.Side.far : Coldness.Side → Link → Nat
  | .leaving, link => link.target
  | .entering, link => link.source

/-- The values of the records on one side of a node under an assignment. -/
def Coldness.Side.values (side : Coldness.Side) (links : List Link) (x : Nat → ColdClass) (n : Nat) :
    List ColdClass :=
  (links.filter fun link => side.near link = n).map fun link => min link.cap (x (side.far link))

namespace ColdnessGraph

open Coldness (Side)

/-- `never` becomes `rare` at a node that can end the execution. -/
def lift (g : ColdnessGraph) (n : Nat) (cls : ColdClass) : ColdClass :=
  if cls = .never ∧ g.ends n then .rare else cls

/-- The bounds (B) and (F): what the records that leave a node and those that enter it allow. -/
def recordBound (g : ColdnessGraph) (x : Nat → ColdClass) (n : Nat) : ColdClass :=
  min (if g.records n = [] then .normal else g.lift n (hottest (Side.leaving.values g.links x n)))
    (if n = g.entry then .normal else hottest (Side.entering.values g.links x n))

/-- The bounds (S), (B) and (F) of a reachable node; any other never runs. -/
def bound (g : ColdnessGraph) (x : Nat → ColdClass) (n : Nat) : ColdClass :=
  if n ∈ g.reachable then min (g.seed n) (g.recordBound x n) else .never

/-- The counters of every node hold the values that its records start with. -/
def Fits (g : ColdnessGraph) : Prop :=
  ∀ (side : Side) (n : Nat), (Tally.ofValues (side.values g.links g.seed n)).atLeastRare < 2 ^ 32

end ColdnessGraph

namespace Coldness

variable {g : ColdnessGraph} {links : List Link} {x y : Nat → ColdClass}

theorem hottest_mono {l l' : List ColdClass} (h : List.Forall₂ (· ≤ ·) l l') : hottest l ≤ hottest l' := by
  induction h with
  | nil => exact le_refl _
  | cons hab _ ih => exact max_le_max hab ih

theorem Side.values_mono (side : Side) (hxy : x ≤ y) (n : Nat) :
    List.Forall₂ (· ≤ ·) (side.values links x n) (side.values links y n) := by
  unfold Side.values
  rw [forall₂_map_left_iff, forall₂_map_right_iff, forall₂_same]
  exact fun link _ => ColdClass.min_mono_right link.cap (hxy _)

theorem lift_mono {n : Nat} {a b : ColdClass} (h : a ≤ b) : g.lift n a ≤ g.lift n b := by
  unfold ColdnessGraph.lift
  cases g.ends n <;> cases a <;> cases b <;> first | decide | exact absurd h (by decide)

theorem bound_mono : Monotone g.bound := by
  intro x y hxy n
  have hvalues : ∀ side : Side, hottest (side.values g.links x n) ≤ hottest (side.values g.links y n) :=
    fun side => hottest_mono (side.values_mono hxy n)
  unfold ColdnessGraph.bound
  split
  · refine min_le_min_left _ (min_le_min ?_ ?_)
    · split
      · exact le_refl _
      · exact lift_mono (hvalues .leaving)
    · split
      · exact le_refl _
      · exact hvalues .entering
  · exact le_refl _

/-! ## Values -/

theorem Side.values_append (side : Side) (l l' : List Link) (x : Nat → ColdClass) (n : Nat) :
    side.values (l ++ l') x n = side.values l x n ++ side.values l' x n := by
  unfold Side.values
  rw [filter_append, map_append]

theorem Side.values_perm (side : Side) {l l' : List Link} (h : l.Perm l') (x : Nat → ColdClass) (n : Nat) :
    (side.values l x n).Perm (side.values l' x n) := (h.filter _).map _

/-- The caps of the records between a node and the node `far` on one of its sides. -/
def Side.caps (side : Side) (links : List Link) (far n : Nat) : List ColdClass :=
  (links.filter fun link => side.near link = n ∧ side.far link = far).map Link.cap

def Side.others (side : Side) (links : List Link) (x : Nat → ColdClass) (far n : Nat) : List ColdClass :=
  side.values (links.filter fun link => side.far link ≠ far) x n

theorem Side.values_split (side : Side) (links : List Link) (x : Nat → ColdClass) (far n : Nat) :
    (side.values links x n).Perm
      ((side.caps links far n).map (min · (x far)) ++ side.others links x far n) := by
  have hparts := (filter_append_perm (fun link => decide (side.far link = far)) links).symm
  refine (side.values_perm hparts x n).trans ?_
  rw [side.values_append]
  refine List.Perm.append (List.Perm.of_eq ?_) (List.Perm.of_eq ?_)
  · unfold Side.values Side.caps
    rw [filter_filter, List.map_map]
    have hfilter : (links.filter fun link => decide (side.near link = n) && decide (side.far link = far)) =
        links.filter fun link => decide (side.near link = n ∧ side.far link = far) :=
      filter_congr fun link _ => (Bool.decide_and _ _).symm
    rw [hfilter]
    refine map_congr_left fun link hlink => ?_
    have hfar := (of_decide_eq_true (mem_filter.mp hlink).2).2
    simp only [Function.comp_apply, hfar]
  · unfold Side.others
    congr 1
    exact filter_congr fun link _ => (decide_not).symm

theorem Side.others_update (side : Side) (links : List Link) (x : Nat → ColdClass) (far : Nat)
    (cls : ColdClass) (n : Nat) :
    side.others links (Function.update x far cls) far n = side.others links x far n := by
  unfold Side.others Side.values
  refine map_congr_left fun link hlink => ?_
  have hne := of_decide_eq_true (mem_filter.mp (mem_filter.mp hlink).1).2
  rw [Function.update_of_ne hne]

theorem Side.values_update (side : Side) (links : List Link) (x : Nat → ColdClass) (far : Nat)
    (cls : ColdClass) (n : Nat) : (side.values links (Function.update x far cls) n).Perm
      ((side.caps links far n).map (min · cls) ++ side.others links x far n) := by
  have h := side.values_split links (Function.update x far cls) far n
  rwa [Function.update_self, side.others_update] at h

end Coldness

end CfgLib
