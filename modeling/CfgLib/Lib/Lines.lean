import Mathlib.Data.List.TakeWhile

/-!
# Line-oriented text

The string operations a line-oriented reader is made of, on the characters of a
text, and what they recover from text that was joined out of lines, words and
numbers.  `Reads` is one stretch of a reader's run: the reader passes over the
stretch and ends in a known state, whatever follows and whatever line it is on.
-/

namespace CfgLib.Lib

open List

abbrev Text := List Char

/-! ## White space -/

/-- Unicode's `White_Space`. -/
def isWhitespace (c : Char) : Bool :=
  (9 ≤ c.toNat && c.toNat ≤ 13) || c.toNat == 0x20 || c.toNat == 0x85 || c.toNat == 0xA0 ||
    c.toNat == 0x1680 || (0x2000 ≤ c.toNat && c.toNat ≤ 0x200A) || c.toNat == 0x2028 ||
    c.toNat == 0x2029 || c.toNat == 0x202F || c.toNat == 0x205F || c.toNat == 0x3000

def trimStart (text : Text) : Text := text.dropWhile isWhitespace

def trimEnd (text : Text) : Text := (text.reverse.dropWhile isWhitespace).reverse

def trim (text : Text) : Text := trimEnd (trimStart text)

/-- The stretches between white space that are not empty. -/
def splitWhitespace (text : Text) : List Text :=
  (text.splitOnP isWhitespace).filter fun word => !word.isEmpty

/-- Characters none of which is white space. -/
def Solid (word : Text) : Prop := ∀ c ∈ word, isWhitespace c = false

instance (word : Text) : Decidable (Solid word) :=
  List.decidableBAll (fun c => isWhitespace c = false) word

theorem Solid.append {v w : Text} (hv : Solid v) (hw : Solid w) : Solid (v ++ w) := by
  intro c hc
  rcases mem_append.mp hc with h | h
  · exact hv c h
  · exact hw c h

variable {c : Char}

theorem Solid.not_mem {w : Text} (hw : Solid w) (hc : isWhitespace c = true) : c ∉ w := by
  intro hmem
  rw [hw c hmem] at hc
  cases hc

theorem trimStart_cons (hc : isWhitespace c = false) (text : Text) :
    trimStart (c :: text) = c :: text := by
  unfold trimStart
  rw [dropWhile_cons_of_neg (by rw [hc]; decide)]

theorem trimStart_indent {indent : Text} (hi : ∀ c ∈ indent, isWhitespace c = true) (text : Text) :
    trimStart (indent ++ text) = trimStart text := by
  induction indent with
  | nil => rfl
  | cons c indent ih =>
    unfold trimStart at ih ⊢
    rw [cons_append, dropWhile_cons_of_pos (hi c mem_cons_self)]
    exact ih fun d hd => hi d (mem_cons_of_mem c hd)

variable {word : Text}

theorem dropWhile_of_solid (hw : Solid word) : word.dropWhile isWhitespace = word := by
  cases word with
  | nil => rfl
  | cons c word =>
    rw [dropWhile_cons_of_neg (by rw [hw c mem_cons_self]; decide)]

theorem trim_of_solid (hw : Solid word) : trim word = word := by
  have hrev : Solid word.reverse := fun c hc => hw c (mem_reverse.mp hc)
  unfold trim trimEnd trimStart
  rw [dropWhile_of_solid hw, dropWhile_of_solid hrev, reverse_reverse]

theorem splitWhitespace_cons (hw : Solid word) (hne : word ≠ []) (rest : Text) :
    splitWhitespace (word ++ ' ' :: rest) = word :: splitWhitespace rest := by
  unfold splitWhitespace
  rw [splitOnP_append_cons_of_forall_mem hw ' ' (by decide), filter_cons_of_pos]
  simpa using hne

theorem splitWhitespace_of_solid (hw : Solid word) (hne : word ≠ []) :
    splitWhitespace word = [word] := by
  unfold splitWhitespace
  rw [splitOnP_eq_singleton hw, filter_cons_of_pos (by simpa using hne), filter_nil]

theorem splitWhitespace_intercalate {words : List Text} (h : ∀ w ∈ words, Solid w ∧ w ≠ []) :
    splitWhitespace ([' '].intercalate words) = words := by
  induction words with
  | nil => rfl
  | cons word words ih =>
    obtain ⟨hw, hne⟩ := h word mem_cons_self
    cases words with
    | nil =>
      rw [intercalate_singleton, splitWhitespace_of_solid hw hne]
    | cons next words =>
      rw [intercalate_cons_cons, append_assoc, singleton_append,
        splitWhitespace_cons hw hne, ih fun w hw => h w (mem_cons_of_mem word hw)]

/-! ## Prefixes, suffixes and fields -/

def stripPrefix : Text → Text → Option Text
  | [], text => some text
  | _ :: _, [] => none
  | a :: affix, c :: text => if a = c then stripPrefix affix text else none

def stripSuffix (affix text : Text) : Option Text :=
  (stripPrefix affix.reverse text.reverse).map List.reverse

theorem stripPrefix_append (affix text : Text) : stripPrefix affix (affix ++ text) = some text := by
  induction affix with
  | nil => rfl
  | cons c affix ih =>
    rw [cons_append, stripPrefix, if_pos rfl]
    exact ih

theorem stripPrefix_of_head_ne {d : Char} (h : c ≠ d) (affix text : Text) :
    stripPrefix (c :: affix) (d :: text) = none := by
  rw [stripPrefix, if_neg h]

theorem stripSuffix_append (text affix : Text) : stripSuffix affix (text ++ affix) = some text := by
  unfold stripSuffix
  rw [reverse_append, stripPrefix_append, Option.map_some, reverse_reverse]

def splitOnce (separator : Char) : Text → Option (Text × Text)
  | [] => none
  | c :: text =>
    if c = separator then some ([], text)
    else (splitOnce separator text).map fun (before, after) => (c :: before, after)

theorem splitOnce_append {separator : Char} {before : Text} (h : separator ∉ before)
    (after : Text) : splitOnce separator (before ++ separator :: after) = some (before, after) := by
  induction before with
  | nil => simp [splitOnce]
  | cons c before ih =>
    have hc : c ≠ separator := fun hc => h (by simp [hc])
    have hrest : separator ∉ before := fun hmem => h (mem_cons_of_mem c hmem)
    simp only [cons_append, splitOnce, if_neg hc, ih hrest, Option.map_some]

/-- The text up to the first space, and the rest from it on. -/
def splitAtSpace (text : Text) : Text × Text :=
  (text.takeWhile (fun c => decide (c ≠ ' ')), text.dropWhile (fun c => decide (c ≠ ' ')))

theorem splitAtSpace_append (h : ' ' ∉ word) (rest : Text) :
    splitAtSpace (word ++ ' ' :: rest) = (word, ' ' :: rest) := by
  have hall : ∀ c ∈ word, decide (c ≠ ' ') = true := by
    intro c hc
    exact decide_eq_true fun hs => h (hs ▸ hc)
  unfold splitAtSpace
  rw [takeWhile_append_of_pos hall, dropWhile_append_of_pos hall]
  simp

theorem splitAtSpace_of_not_mem (h : ' ' ∉ word) : splitAtSpace word = (word, []) := by
  have hall : ∀ c ∈ word, decide (c ≠ ' ') = true := by
    intro c hc
    exact decide_eq_true fun hs => h (hs ▸ hc)
  unfold splitAtSpace
  rw [takeWhile_eq_self_iff.mpr hall, dropWhile_eq_nil_iff.mpr hall]

theorem mem_intercalate {separator : Char} {parts : List Text}
    (h : c ∈ [separator].intercalate parts) : c = separator ∨ ∃ part ∈ parts, c ∈ part := by
  induction parts with
  | nil => cases h
  | cons part parts ih =>
    cases parts with
    | nil =>
      rw [intercalate_singleton] at h
      exact Or.inr ⟨part, mem_cons_self, h⟩
    | cons next parts =>
      rw [intercalate_cons_cons, mem_append, mem_append, mem_singleton] at h
      rcases h with (h | h) | h
      · exact Or.inr ⟨part, mem_cons_self, h⟩
      · exact Or.inl h
      · rcases ih h with h | ⟨p, hp, h⟩
        · exact Or.inl h
        · exact Or.inr ⟨p, mem_cons_of_mem part hp, h⟩

/-! ## Lines -/

def stripCarriageReturn (line : Text) : Text := (stripSuffix ['\r'] line).getD line

/-- The lines of a text, without their ends; a line that ends the text without a
line break keeps its carriage return. -/
def lines (text : Text) : List Text :=
  let segments := text.splitOn '\n'
  segments.dropLast.map stripCarriageReturn ++
    segments.getLast?.toList.filter fun line => !line.isEmpty

def endLine (line : Text) : Text := line ++ ['\n']

theorem stripCarriageReturn_of_not_mem {line : Text} (h : '\r' ∉ line) :
    stripCarriageReturn line = line := by
  unfold stripCarriageReturn stripSuffix
  cases hrev : line.reverse with
  | nil => rfl
  | cons c text =>
    have hc : c ∈ line := mem_reverse.mp (hrev ▸ mem_cons_self)
    have hne : '\r' ≠ c := fun he => h (he ▸ hc)
    rw [reverse_singleton, stripPrefix_of_head_ne hne]
    rfl

theorem lines_endLine {line : Text} (hn : '\n' ∉ line) (hr : '\r' ∉ line) (rest : Text) :
    lines (endLine line ++ rest) = line :: lines rest := by
  have hsplit : (endLine line ++ rest).splitOn '\n' = line :: rest.splitOn '\n' := by
    unfold endLine
    rw [append_assoc]
    exact splitOn_append_cons_self_of_not_mem hn rest
  have hne := splitOn_ne_nil '\n' rest
  simp only [lines]
  rw [hsplit, dropLast_cons_of_ne_nil hne, getLast?_cons_of_ne_nil hne]
  simp only [map_cons, cons_append, stripCarriageReturn_of_not_mem hr]

/-! ## Reading -/

section reading

variable {σ ε α : Type} (significant : Text → Option Text) (step : σ → Nat → Text → Except ε σ)

/-- Step through the significant lines of a text whose first line has the number `k`. -/
def readFrom (k : Nat) (s : σ) (text : Text) : Except ε σ :=
  (((lines text).zipIdx k).filterMap fun (raw, number) =>
    (significant raw).map fun content => (number, content)).foldlM
      (fun s (number, content) => step s number content) s

/-- Reading the text from `s` leads to `s'`, whatever follows it. -/
def Reads (s : σ) (text : Text) (s' : σ) : Prop :=
  ∀ k rest, ∃ k', readFrom significant step k s (text ++ rest) = readFrom significant step k' s' rest

variable {significant step} {s s' s'' : σ} {text text' : Text}

theorem Reads.nil : Reads significant step s [] s := fun k _ => ⟨k, rfl⟩

theorem Reads.trans (h : Reads significant step s text s')
    (h' : Reads significant step s' text' s'') : Reads significant step s (text ++ text') s'' := by
  intro k rest
  obtain ⟨k₁, hk₁⟩ := h k (text' ++ rest)
  obtain ⟨k₂, hk₂⟩ := h' k₁ rest
  exact ⟨k₂, by rw [append_assoc, hk₁, hk₂]⟩

theorem Reads.line {line content : Text} (hn : '\n' ∉ line) (hr : '\r' ∉ line)
    (hs : significant line = some content) (hstep : ∀ k, step s k content = .ok s') :
    Reads significant step s (endLine line) s' := by
  intro k rest
  refine ⟨k + 1, ?_⟩
  unfold readFrom
  rw [lines_endLine hn hr, zipIdx_cons]
  simp only [filterMap_cons, hs, Option.map_some, foldlM_cons, hstep]
  rfl

theorem Reads.readFrom_eq (h : Reads significant step s text s') (k : Nat) :
    readFrom significant step k s text = .ok s' := by
  obtain ⟨k', hk'⟩ := h k []
  rw [append_nil] at hk'
  rw [hk']
  rfl

theorem Reads.flatMap {f : α → Text} {I : List α → σ → Prop} {l : List α}
    (h : ∀ done a rest s, l = done ++ a :: rest → I done s →
      ∃ s', Reads significant step s (f a) s' ∧ I (done ++ [a]) s') (hs : I [] s) :
    ∃ s', Reads significant step s (l.flatMap f) s' ∧ I l s' := by
  suffices hgo : ∀ xs done s, l = done ++ xs → I done s →
      ∃ s', Reads significant step s (xs.flatMap f) s' ∧ I l s' from hgo l [] s rfl hs
  intro xs
  induction xs with
  | nil =>
    intro done s hl hs
    rw [append_nil] at hl
    exact ⟨s, .nil, hl ▸ hs⟩
  | cons a xs ih =>
    intro done s hl hs
    obtain ⟨s₁, hread, hs₁⟩ := h done a xs s hl hs
    obtain ⟨s₂, hreads, hs₂⟩ := ih (done ++ [a]) s₁ (by simp [hl]) hs₁
    refine ⟨s₂, ?_, hs₂⟩
    rw [flatMap_cons]
    exact hread.trans hreads

end reading

end CfgLib.Lib
