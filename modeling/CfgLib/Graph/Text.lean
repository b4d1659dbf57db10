import CfgLib.Lib.Lines
import Mathlib.Data.Finset.Sort

/-!
# The text form's lines

`graph/text.rs`: what the readers and writers of a graph's text form share, which
is the escape rule, the table of declared slots, and the scanner.
-/

namespace CfgLib

open CfgLib.Lib List

/-- What was wrong with one line of a text graph. -/
inductive TextErrorKind where
  | unrecognized
  | identifier
  | nodeOrder (expected : Nat)
  | unknownNode (index : Nat)
  | edgeKind
  | escape
  | region
  | tooManyHoles (limit : Nat)
  | instruction (why : String)
  deriving DecidableEq, Repr

/-- Why a text graph could not be read. -/
structure TextError where
  line : Nat
  kind : TextErrorKind
  deriving DecidableEq, Repr

/-- Why reading stops: what is wrong with the document, or a panic. -/
inductive Stop where
  | error (error : TextError)
  | panic
  deriving DecidableEq, Repr

def fail {α : Type} (line : Nat) (kind : TextErrorKind) : Except Stop α := .error (.error ⟨line, kind⟩)

def orPanic {α : Type} : Option α → Except Stop α
  | none => .error .panic
  | some a => .ok a

/-! ## Escaping -/

/-- A sink that escapes everything written through it. -/
structure EscapingSink where
  sink : Text
  atStart : Bool

def EscapingSink.new : EscapingSink := ⟨[], true⟩

def escapeChar (atStart : Bool) (ch : Char) : Text :=
  if ch = '\\' then ['\\', '\\']
  else if ch = '\n' then ['\\', 'n']
  else if ch = '\r' then ['\\', 'r']
  else if (ch = '-' ∨ ch = '#') ∧ atStart then ['\\', ch]
  else if atStart ∧ isWhitespace ch then ['\\', 'u', '{'] ++ Nat.toDigits 16 ch.toNat ++ ['}']
  else [ch]

def EscapingSink.writeStr (s : EscapingSink) (text : Text) : EscapingSink :=
  text.foldl (fun s ch => ⟨s.sink ++ escapeChar s.atStart ch, false⟩) s

/-- Escape one label so no line of the grammar can be misread. -/
def writeEscaped (label : Text) : Text := (EscapingSink.new.writeStr label).sink

/-- A label after its subject, escaped, or nothing when it is empty. -/
def writeLabel (label : Text) : Text := if label = [] then [] else ' ' :: writeEscaped label

/-- `char::to_digit(16)`. -/
def toHexDigit (c : Char) : Option Nat :=
  if '0' ≤ c ∧ c ≤ '9' then some (c.toNat - '0'.toNat)
  else if 'a' ≤ c ∧ c ≤ 'f' then some (c.toNat - 'a'.toNat + 10)
  else if 'A' ≤ c ∧ c ≤ 'F' then some (c.toNat - 'A'.toNat + 10)
  else none

/-- The digits up to the closing brace: the value, how many there were, and what follows. -/
def codePointDigits : Nat → Nat → Text → Option (Nat × Nat × Text)
  | _, _, [] => none
  | value, digits, c :: rest =>
    if c = '}' then some (value, digits, rest)
    else
      match toHexDigit c with
      | none => none
      | some digit =>
        if value * 16 + digit < 2 ^ 32 then codePointDigits (value * 16 + digit) (digits + 1) rest
        else none

def charFromU32 (value : Nat) : Option Char :=
  if value.isValidChar then some (Char.ofNat value) else none

/-- The code point of an escape whose `\u` has been read, and what follows it. -/
def codePoint : Text → Option (Char × Text)
  | '{' :: rest =>
    match codePointDigits 0 0 rest with
    | none => none
    | some (value, digits, rest) =>
      if digits = 0 then none else (charFromU32 value).map fun c => (c, rest)
  | _ => none

variable {c : Char} {n : Nat} {rest text token : Text} {α : Type}

variable {atStart : Bool} {digits m value : Nat} {f : Nat → α} {affix w word : Text} {e : α}

theorem length_codePointDigits {value' digits' : Nat}
    (h : codePointDigits value digits text = some (value', digits', rest)) :
    rest.length < text.length := by
  induction text generalizing value digits with
  | nil => cases h
  | cons c text ih =>
    unfold codePointDigits at h
    split at h
    · cases h
      exact Nat.lt_succ_self _
    · split at h
      · cases h
      · split at h
        · exact Nat.lt_succ_of_lt (ih h)
        · cases h

theorem length_codePoint (h : codePoint text = some (c, rest)) : rest.length < text.length := by
  unfold codePoint at h
  split at h
  · next text =>
    split at h
    · cases h
    · next value digits rest' hdigits =>
      split at h
      · cases h
      · obtain ⟨_, _, heq⟩ := Option.map_eq_some_iff.mp h
        cases heq
        exact Nat.lt_succ_of_lt (length_codePointDigits hdigits)
  · cases h

/-- Reverse `writeEscaped`. -/
def unescape (line : Nat) : Text → Except Stop Text
  | [] => .ok []
  | '\\' :: '\\' :: rest => (unescape line rest).map ('\\' :: ·)
  | '\\' :: 'n' :: rest => (unescape line rest).map ('\n' :: ·)
  | '\\' :: 'r' :: rest => (unescape line rest).map ('\r' :: ·)
  | '\\' :: '-' :: rest => (unescape line rest).map ('-' :: ·)
  | '\\' :: '#' :: rest => (unescape line rest).map ('#' :: ·)
  | '\\' :: 'u' :: rest =>
    match h : codePoint rest with
    | none => fail line .escape
    | some (c, rest') =>
      have := length_codePoint h
      (unescape line rest').map (c :: ·)
  | '\\' :: _ => fail line .escape
  | ch :: rest => (unescape line rest).map (ch :: ·)
termination_by text => text.length

/-! ## The round trip of one label -/

/-- What a text is escaped to from the given state. -/
def escapeFrom : Bool → Text → Text
  | _, [] => []
  | atStart, ch :: text => escapeChar atStart ch ++ escapeFrom false text

theorem sink_writeStr (s : EscapingSink) (text : Text) :
    (s.writeStr text).sink = s.sink ++ escapeFrom s.atStart text := by
  unfold EscapingSink.writeStr
  induction text generalizing s with
  | nil => simp [escapeFrom]
  | cons ch text ih => rw [foldl_cons, ih, escapeFrom, append_assoc]

theorem writeEscaped_eq (label : Text) : writeEscaped label = escapeFrom true label :=
  sink_writeStr .new label

/-- How a text is cut into pieces does not matter to the sink. -/
theorem foldl_writeStr (s : EscapingSink) (pieces : List Text) :
    pieces.foldl EscapingSink.writeStr s = s.writeStr pieces.flatten := by
  induction pieces generalizing s with
  | nil => rfl
  | cons piece pieces ih =>
    rw [foldl_cons, ih, flatten_cons]
    unfold EscapingSink.writeStr
    rw [foldl_append]

theorem toHexDigit_digitChar : ∀ d < 16,
    Nat.digitChar d ≠ '}' ∧ toHexDigit (Nat.digitChar d) = some d ∧ Nat.digitChar d ≠ '\n' ∧
      Nat.digitChar d ≠ '\r' := by
  decide

theorem codePointDigits_digitChar {d : Nat} (hd : d < 16) (hv : value * 16 + d < 2 ^ 32) (rest : Text) :
    codePointDigits value digits (Nat.digitChar d :: rest) =
      codePointDigits (value * 16 + d) (digits + 1) rest := by
  obtain ⟨hne, hdigit, _⟩ := toHexDigit_digitChar d hd
  rw [codePointDigits, if_neg hne, hdigit]
  simp only [hv, if_true]

theorem codePointDigits_toDigits (hn : n < 2 ^ 32) : ∃ digits, 0 < digits ∧ ∀ rest,
    codePointDigits 0 0 (Nat.toDigits 16 n ++ rest) = codePointDigits n digits rest := by
  induction n using Nat.strong_induction_on with
  | _ n ih =>
    by_cases hlt : n < 16
    · refine ⟨1, Nat.one_pos, fun rest => ?_⟩
      rw [Nat.toDigits_of_lt_base hlt, singleton_append,
        codePointDigits_digitChar hlt (by omega)]
      simp
    · obtain ⟨digits, hpos, hdigits⟩ := ih (n / 16) (by omega) (by omega)
      refine ⟨digits + 1, Nat.succ_pos digits, fun rest => ?_⟩
      have hdiv : n / 16 * 16 + n % 16 = n := by omega
      rw [Nat.toDigits_of_base_le (by decide) (by omega), append_assoc, hdigits,
        singleton_append, codePointDigits_digitChar (Nat.mod_lt n (by decide)) (by omega), hdiv]

theorem charFromU32_toNat (c : Char) : charFromU32 c.toNat = some c := by
  unfold charFromU32
  rw [if_pos (show c.toNat.isValidChar from c.valid), Char.ofNat_toNat]

theorem toNat_lt (c : Char) : c.toNat < 2 ^ 32 := c.val.toNat_lt

theorem codePoint_escape (c : Char) (rest : Text) :
    codePoint ('{' :: (Nat.toDigits 16 c.toNat ++ '}' :: rest)) = some (c, rest) := by
  obtain ⟨digits, hpos, hdigits⟩ := codePointDigits_toDigits (toNat_lt c)
  simp only [codePoint, hdigits, codePointDigits, if_true, if_neg (Nat.ne_of_gt hpos),
    charFromU32_toNat, Option.map_some]

theorem unescape_escapeChar (line : Nat) (atStart : Bool) (ch : Char) (rest : Text) :
    unescape line (escapeChar atStart ch ++ rest) = (unescape line rest).map (ch :: ·) := by
  unfold escapeChar
  split
  · next h =>
    subst h
    simp [unescape]
  split
  · next h =>
    subst h
    simp [unescape]
  split
  · next h =>
    subst h
    simp [unescape]
  split
  · next h =>
    rcases h.1 with rfl | rfl <;> simp [unescape]
  split
  · have happend : ['\\', 'u', '{'] ++ Nat.toDigits 16 ch.toNat ++ ['}'] ++ rest =
        '\\' :: 'u' :: '{' :: (Nat.toDigits 16 ch.toNat ++ '}' :: rest) := by simp
    rw [happend, unescape]
    split
    · next hnone =>
      rw [codePoint_escape] at hnone
      cases hnone
    · next c rest' hsome =>
      rw [codePoint_escape] at hsome
      cases hsome
      rfl
  · next hne _ _ _ _ =>
    rw [singleton_append, unescape]
    all_goals
      intros
      exact hne ‹_›

theorem unescape_escapeFrom (line : Nat) (atStart : Bool) (text : Text) :
    unescape line (escapeFrom atStart text) = .ok text := by
  induction text generalizing atStart with
  | nil => simp [escapeFrom, unescape]
  | cons ch text ih =>
    rw [escapeFrom, unescape_escapeChar, ih]
    rfl

theorem mem_toDigits_hex (hc : c ∈ Nat.toDigits 16 n) : ∃ d < 16, c = Nat.digitChar d := by
  induction n using Nat.strong_induction_on with
  | _ n ih =>
    by_cases hlt : n < 16
    · rw [Nat.toDigits_of_lt_base hlt, mem_singleton] at hc
      exact ⟨n, hlt, hc⟩
    · rw [Nat.toDigits_of_base_le (by decide) (by omega), mem_append, mem_singleton] at hc
      rcases hc with hc | hc
      · exact ih (n / 16) (by omega) hc
      · exact ⟨n % 16, Nat.mod_lt n (by decide), hc⟩

theorem mem_escapeChar {ch : Char} (h : c ∈ escapeChar atStart ch) : c ≠ '\n' ∧ c ≠ '\r' := by
  unfold escapeChar at h
  split at h
  · simp only [mem_cons, not_mem_nil, or_false, or_self] at h
    subst h
    decide
  split at h
  · simp only [mem_cons, not_mem_nil, or_false] at h
    rcases h with rfl | rfl <;> decide
  split at h
  · simp only [mem_cons, not_mem_nil, or_false] at h
    rcases h with rfl | rfl <;> decide
  split at h
  · next hch =>
    simp only [mem_cons, not_mem_nil, or_false] at h
    rcases h with rfl | rfl
    · decide
    · rcases hch.1 with rfl | rfl <;> decide
  split at h
  · simp only [mem_append, mem_cons, not_mem_nil, or_false] at h
    rcases h with ((rfl | rfl | rfl) | hdigit) | rfl
    · decide
    · decide
    · decide
    · obtain ⟨d, hd, rfl⟩ := mem_toDigits_hex hdigit
      exact (toHexDigit_digitChar d hd).2.2
    · decide
  · next hn hr _ _ =>
    rw [mem_singleton] at h
    subst h
    exact ⟨hn, hr⟩

theorem mem_escapeFrom (h : c ∈ escapeFrom atStart text) : c ≠ '\n' ∧ c ≠ '\r' := by
  induction text generalizing atStart with
  | nil => cases h
  | cons ch text ih =>
    rcases mem_append.mp h with h | h
    · exact mem_escapeChar h
    · exact ih h

/-- An escaped text starts with no character that would make it something else. -/
theorem head_escapeFrom (hne : text ≠ []) : ∃ c rest,
    escapeFrom true text = c :: rest ∧ isWhitespace c = false ∧ c ≠ '#' ∧ c ≠ '-' := by
  obtain ⟨ch, text, rfl⟩ := exists_cons_of_ne_nil hne
  have hslash : isWhitespace '\\' = false ∧ '\\' ≠ '#' ∧ '\\' ≠ '-' := by decide
  rw [escapeFrom]
  unfold escapeChar
  split
  · exact ⟨_, _, rfl, hslash⟩
  split
  · exact ⟨_, _, rfl, hslash⟩
  split
  · exact ⟨_, _, rfl, hslash⟩
  split
  · exact ⟨_, _, rfl, hslash⟩
  split
  · exact ⟨_, _, rfl, hslash⟩
  · next hmark hspace =>
    refine ⟨_, _, rfl, ?_, ?_, ?_⟩
    · simpa using hspace
    · exact fun h => hmark ⟨Or.inr h, rfl⟩
    · exact fun h => hmark ⟨Or.inl h, rfl⟩

/-! ## Slots -/

/-- How many removed slots one document may ask a reader to recreate. -/
def maxHoles : Nat := 2 ^ 20

structure Slots where
  declared : List Bool
  next : Nat
  holes : Nat

namespace Slots

/-- An empty table, for a reader that starts with no slot at all. -/
def new : Slots := ⟨[], 0, 0⟩

/-- A table that already holds one slot no line has declared. -/
def withUndeclaredSlot : Slots := ⟨[false], 0, 1⟩

/-- Declare a slot and return how many slots the table held before. -/
def declare (s : Slots) (index line : Nat) : Except Stop (Nat × Slots) :=
  let before := s.declared.length
  let gap := index - before
  if index < s.next then fail line (.nodeOrder s.next)
  else if maxHoles < s.holes + gap then fail line (.tooManyHoles maxHoles)
  else if index < before then
    .ok (before, ⟨s.declared.set index true, index + 1, s.holes - 1⟩)
  else .ok (before, ⟨s.declared ++ List.replicate gap false ++ [true], index + 1, s.holes + gap⟩)

def checkLive (s : Slots) (index line : Nat) : Except Stop Unit :=
  if s.declared[index]? = some true then .ok () else fail line (.unknownNode index)

/-- The slots no line declared, in ascending order. -/
def undeclared (s : Slots) : List Nat :=
  (List.range s.declared.length).filter fun index => s.declared[index]? = some false

end Slots

/-- A table that starts with one slot holding `e` and has then been filled below `m`. -/
def slotsBelow {α : Type} (e : α) (f : Nat → α) (m : Nat) : List α :=
  if m = 0 then [e] else (List.range m).map f

@[simp] theorem length_slotsBelow (e : α) (f : Nat → α) (m : Nat) :
    (slotsBelow e f m).length = max m 1 := by
  unfold slotsBelow
  split
  · next h =>
    rw [h]
    rfl
  · rw [length_map, length_range]
    omega

theorem slotsBelow_succ (e : α) (f : Nat → α) (n : Nat) :
    slotsBelow e f (n + 1) = (List.range n).map f ++ [f n] := by
  rw [slotsBelow, if_neg (Nat.succ_ne_zero n), range_succ, map_append]
  rfl

/-- A table filled below `m` grows by empty slots up to the next slot that is not. -/
theorem map_range_append (hmn : m ≤ n) (he : ∀ i, m ≤ i → i < n → f i = e) :
    (List.range m).map f ++ List.replicate (n - m) e = (List.range n).map f := by
  obtain ⟨d, rfl⟩ := Nat.exists_eq_add_of_le hmn
  have hgap : (List.range d).map (fun i => f (m + i)) = List.replicate d e := by
    rw [eq_replicate_iff]
    refine ⟨by simp, ?_⟩
    intro x hx
    obtain ⟨i, hi, rfl⟩ := mem_map.mp hx
    exact he _ (Nat.le_add_right m i) (by simpa using hi)
  rw [Nat.add_sub_cancel_left, range_add, map_append, map_map, ← hgap]
  rfl

theorem slotsBelow_append (hmn : m ≤ n) (he : ∀ i, m ≤ i → i < n → f i = e) :
    slotsBelow e f m ++ List.replicate (n + 1 - max m 1) e = (List.range n).map f ++ [e] := by
  rw [← map_range_append hmn he]
  obtain ⟨d, rfl⟩ := Nat.exists_eq_add_of_le hmn
  rw [Nat.add_sub_cancel_left, append_assoc, ← replicate_succ']
  unfold slotsBelow
  split
  · next h =>
    subst h
    rw [show 0 + d + 1 - max 0 1 = d by omega, range_zero, map_nil, nil_append,
      singleton_append, ← replicate_succ]
  · rw [show m + d + 1 - max m 1 = d + 1 by omega]

namespace Slots

def below (live : Nat → Bool) (m : Nat) : Slots :=
  ⟨slotsBelow false live m, m, (slotsBelow false live m).count false⟩

variable {m : Nat} {live : Nat → Bool}

theorem declare_below (hmn : m ≤ n) (hdead : ∀ i, m ≤ i → i < n → live i = false) (hn : live n = true)
    (hholes : ((List.range n).map live).count false ≤ maxHoles) (line : Nat) :
    (below live m).declare n line = .ok (max m 1, below live (n + 1)) := by
  have hfill := slotsBelow_append hmn hdead
  have hnew : below live (n + 1) = ⟨(List.range n).map live ++ [true], n + 1,
      ((List.range n).map live).count false⟩ := by
    unfold below
    rw [slotsBelow_succ, hn, count_append]
    rfl
  rw [hnew]
  unfold declare
  simp only [below, length_slotsBelow]
  rw [if_neg (by omega)]
  by_cases hlt : n < max m 1
  · -- the slot the table started with
    obtain ⟨rfl, rfl⟩ : m = 0 ∧ n = 0 := by omega
    rw [show slotsBelow false live 0 = [false] from rfl, if_neg (by decide), if_pos (by decide)]
    rfl
  · have hdeclared : slotsBelow false live m ++ List.replicate (n - max m 1) false =
        (List.range n).map live := by
      rw [show n + 1 - max m 1 = n - max m 1 + 1 by omega, replicate_succ',
        ← append_assoc] at hfill
      exact append_cancel_right hfill
    have hcount : (slotsBelow false live m).count false + (n - max m 1) =
        ((List.range n).map live).count false := by
      rw [← hdeclared, count_append, count_replicate_self]
    rw [hcount, if_neg (by omega), if_neg hlt, hdeclared]

/-- The table of a reader that started with none, whose declared slots are the live ones below `m`. -/
def upTo (live : Nat → Bool) (m : Nat) : Slots :=
  ⟨(List.range m).map live, m, ((List.range m).map live).count false⟩

theorem declare_upTo (hmn : m ≤ n) (hdead : ∀ i, m ≤ i → i < n → live i = false) (hn : live n = true)
    (hholes : ((List.range n).map live).count false ≤ maxHoles) (line : Nat) :
    (upTo live m).declare n line = .ok (m, upTo live (n + 1)) := by
  have hfill := map_range_append hmn hdead
  have hcount : ((List.range m).map live).count false + (n - m) =
      ((List.range n).map live).count false := by
    rw [← hfill, count_append, count_replicate_self]
  unfold declare
  simp only [upTo, length_map, length_range]
  rw [if_neg (by omega), hcount, if_neg (by omega), if_neg (by omega), hfill, range_succ,
    map_append, map_singleton, hn, count_append]
  rfl

variable {b i : Nat}

theorem checkLive_upTo (hb : b < m) (hlive : live b = true) (line : Nat) : (upTo live m).checkLive b line = .ok () := by
  unfold checkLive
  rw [if_pos]
  unfold upTo
  rw [getElem?_map, getElem?_range hb, Option.map_some, hlive]

theorem mem_undeclared_upTo : i ∈ (upTo live m).undeclared ↔ i < m ∧ live i = false := by
  unfold undeclared
  simp only [upTo, length_map, length_range, mem_filter, mem_range,
    decide_eq_true_eq, getElem?_map]
  constructor
  · intro ⟨hi, h⟩
    rw [getElem?_range hi] at h
    exact ⟨hi, by simpa using h⟩
  · intro ⟨hi, h⟩
    refine ⟨hi, ?_⟩
    rw [getElem?_range hi, Option.map_some, h]

/-- Once a slot is declared, the slot the table started with makes no difference. -/
theorem below_eq_upTo (hm : 0 < m) : below live m = upTo live m := by
  unfold below upTo slotsBelow
  rw [if_neg (Nat.ne_of_gt hm)]

theorem checkLive_below (hb : b < m) (hlive : live b = true)
    (line : Nat) : (below live m).checkLive b line = .ok () := by
  rw [below_eq_upTo (Nat.zero_lt_of_lt hb)]
  exact checkLive_upTo hb hlive line

theorem mem_undeclared_below (hm : 0 < m) :
    i ∈ (below live m).undeclared ↔ i < m ∧ live i = false := by
  rw [below_eq_upTo hm]
  exact mem_undeclared_upTo

end Slots

/-! ## Scanning -/

def showIndex (affix : Text) (index : Nat) : Text := affix ++ Nat.toDigits 10 index

/-- The dense index named by a token, which must be the affix then digits. -/
def parseIndex (token affix : Text) (line : Nat) : Except Stop Nat :=
  match stripPrefix affix token with
  | none => fail line .identifier
  | some digits =>
    if digits ≠ [] ∧ digits.all Char.isDigit ∧ Nat.ofDigitChars 10 digits 0 < 2 ^ 64 then
      .ok (Nat.ofDigitChars 10 digits 0)
    else fail line .identifier

/-- The content of a line that is neither blank nor a comment. -/
def significantLine (raw : Text) : Option Text :=
  let content := stripCarriageReturn raw
  let trimmed := trimStart content
  if trimmed ≠ [] ∧ trimmed.head? ≠ some '#' then some content else none

def splitTokensFrom : Nat → Text → Option (List Text × Text)
  | 0, rest => some ([], rest)
  | count + 1, rest =>
    let (token, remainder) := splitAtSpace (trimStart rest)
    if token = [] then none
    else (splitTokensFrom count remainder).map fun (tokens, rest) => (token :: tokens, rest)

/-- Split a line into its leading tokens and the rest, without the one space that
separates them. -/
def splitTokens (line : Text) (count : Nat) : Option (List Text × Text) :=
  (splitTokensFrom count line).map fun (tokens, rest) =>
    (tokens, (stripPrefix [' '] rest).getD rest)

theorem trimStart_of_solid (hw : Solid word) (hne : word ≠ []) (rest : Text) :
    trimStart (word ++ rest) = word ++ rest := by
  obtain ⟨c, word, rfl⟩ := exists_cons_of_ne_nil hne
  exact trimStart_cons (hw c mem_cons_self) _

theorem splitTokensFrom_cons (ht : Solid token) (hne : token ≠ []) (rest : Text)
    (count : Nat) : splitTokensFrom (count + 1) (token ++ ' ' :: rest) =
      (splitTokensFrom count (' ' :: rest)).map fun (tokens, rest) => (token :: tokens, rest) := by
  rw [splitTokensFrom]
  simp only [trimStart_of_solid ht hne, splitAtSpace_append (ht.not_mem (by decide)), if_neg hne]

theorem splitTokensFrom_of_solid (ht : Solid token) (hne : token ≠ []) (count : Nat) :
    splitTokensFrom (count + 1) token =
      (splitTokensFrom count []).map fun (tokens, rest) => (token :: tokens, rest) := by
  have htrim := trimStart_of_solid ht hne []
  rw [append_nil] at htrim
  rw [splitTokensFrom]
  simp only [htrim, splitAtSpace_of_not_mem (ht.not_mem (by decide)), if_neg hne]

theorem splitTokensFrom_space (count : Nat) (rest : Text) :
    splitTokensFrom (count + 1) (' ' :: rest) = splitTokensFrom (count + 1) rest := by
  unfold splitTokensFrom
  rw [show trimStart (' ' :: rest) = trimStart rest from rfl]

theorem splitTokens_one (ht : Solid token) (hne : token ≠ []) (rest : Text) :
    splitTokens (token ++ ' ' :: rest) 1 = some ([token], rest) := by
  unfold splitTokens
  rw [splitTokensFrom_cons ht hne]
  rfl

theorem splitTokens_one_of_solid (ht : Solid token) (hne : token ≠ []) :
    splitTokens token 1 = some ([token], []) := by
  unfold splitTokens
  rw [splitTokensFrom_of_solid ht hne]
  rfl

theorem splitTokens_two {token' : Text} (ht : Solid token) (hne : token ≠ [])
    (ht' : Solid token') (hne' : token' ≠ []) :
    splitTokens (token ++ ' ' :: token') 2 = some ([token, token'], []) := by
  unfold splitTokens
  rw [splitTokensFrom_cons ht hne, splitTokensFrom_space, splitTokensFrom_of_solid ht' hne']
  rfl

theorem isWhitespace_of_isDigit (h : c.isDigit = true) : isWhitespace c = false := by
  simp only [Char.isDigit, Bool.and_eq_true, decide_eq_true_eq] at h
  have h₁ : 48 ≤ c.toNat := h.1
  have h₂ : c.toNat ≤ 57 := h.2
  simp only [isWhitespace, Bool.or_eq_false_iff, Bool.and_eq_false_iff, decide_eq_false_iff_not,
    beq_eq_false_iff_ne]
  omega

theorem isDigit_of_mem_toDigits (hc : c ∈ Nat.toDigits 10 n) : c.isDigit = true :=
  Nat.isDigit_of_mem_toDigits (by decide) (by decide) hc

theorem not_mem_toDigits (hc : c.isDigit = false) (n : Nat) : c ∉ Nat.toDigits 10 n := by
  intro hmem
  rw [isDigit_of_mem_toDigits hmem] at hc
  cases hc

theorem solid_toDigits (n : Nat) : Solid (Nat.toDigits 10 n) :=
  fun _ hc => isWhitespace_of_isDigit (isDigit_of_mem_toDigits hc)

theorem solid_showIndex (h : Solid affix) (n : Nat) : Solid (showIndex affix n) :=
  h.append (solid_toDigits n)

theorem not_mem_showIndex (ha : c ∉ affix) (hc : c.isDigit = false) (n : Nat) : c ∉ showIndex affix n := by
  intro hmem
  rcases mem_append.mp hmem with h | h
  · exact ha h
  · exact not_mem_toDigits hc n h

/-- A label after its subject: what is split off is neither an arrow nor changed. -/
theorem splitTokens_label (hw : Solid word) (hne : word ≠ []) (label : Text) :
    ∃ tail, splitTokens (word ++ writeLabel label) 1 = some ([word], tail) ∧
      stripPrefix "-> ".toList tail = none ∧ ∀ line, unescape line tail = .ok label := by
  unfold writeLabel
  by_cases hlabel : label = []
  · refine ⟨[], ?_, by decide, ?_⟩
    · rw [if_pos hlabel, append_nil, splitTokens_one_of_solid hw hne]
    · intro line
      rw [unescape, hlabel]
  · obtain ⟨c, rest, heq, _, _, hminus⟩ := head_escapeFrom hlabel
    refine ⟨writeEscaped label, ?_, ?_, ?_⟩
    · rw [if_neg hlabel]
      exact splitTokens_one hw hne _
    · rw [writeEscaped_eq, heq]
      exact stripPrefix_of_head_ne (Ne.symm hminus) _ _
    · intro line
      rw [writeEscaped_eq]
      exact unescape_escapeFrom line true label

theorem parseIndex_showIndex (hn : n < 2 ^ 64) (affix : Text) (line : Nat) :
    parseIndex (showIndex affix n) affix line = .ok n := by
  have hall : (Nat.toDigits 10 n).all Char.isDigit = true :=
    all_eq_true.mpr fun _ hc => isDigit_of_mem_toDigits hc
  unfold parseIndex showIndex
  simp only [stripPrefix_append, Nat.ofDigitChars_ten_toDigits]
  rw [if_pos ⟨Nat.toDigits_ne_nil, hall, hn⟩]

theorem significantLine_eq {line : Text} (hr : '\r' ∉ line)
    (htrim : trimStart line = c :: rest) (hc : c ≠ '#') : significantLine line = some line := by
  unfold significantLine
  simp only [stripCarriageReturn_of_not_mem hr, htrim]
  rw [if_pos]
  exact ⟨by simp, by simpa using hc⟩

/-- Characters none of which ends a line. -/
def Plain (text : Text) : Prop := '\n' ∉ text ∧ '\r' ∉ text

instance (text : Text) : Decidable (Plain text) :=
  inferInstanceAs (Decidable ('\n' ∉ text ∧ '\r' ∉ text))

theorem Plain.append {v : Text} (hv : Plain v) (hw : Plain w) : Plain (v ++ w) := by
  unfold Plain at *
  simp only [mem_append, not_or]
  exact ⟨⟨hv.1, hw.1⟩, hv.2, hw.2⟩

theorem plain_of_solid (hw : Solid w) : Plain w :=
  ⟨hw.not_mem (by decide), hw.not_mem (by decide)⟩

theorem plain_escapeFrom (atStart : Bool) (text : Text) : Plain (escapeFrom atStart text) :=
  ⟨fun h => (mem_escapeFrom h).1 rfl, fun h => (mem_escapeFrom h).2 rfl⟩

theorem plain_writeLabel (label : Text) : Plain (writeLabel label) := by
  unfold writeLabel
  split
  · decide
  · rw [writeEscaped_eq]
    exact Plain.append (show Plain [' '] by decide) (plain_escapeFrom true label)

end CfgLib
