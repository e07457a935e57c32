import Mathlib.Data.List.DropRight
import Mathlib.Tactic.Common

/-!
# Python strings

A Python string is a sequence of code points, lone surrogates included. The module
has the string methods that a line- and word-oriented reader uses, with the
character classes of Python 3.11, and the laws that connect them to text laid out
as lines of words separated by blanks.
-/

namespace PythonPortfolio.Library

/-- A character of a Python string: a scalar value or a lone surrogate. -/
inductive PyChar where
  | scalar (c : Char)
  | surrogate (n : Fin 2048)
deriving DecidableEq

abbrev PyStr := List PyChar

namespace PyChar

def code : PyChar → Nat
  | .scalar c => c.toNat
  | .surrogate n => 0xD800 + n

def scalar? : PyChar → Option Char
  | .scalar c => some c
  | .surrogate _ => none

def inRanges (ranges : List (Nat × Nat)) (n : Nat) : Bool :=
  ranges.any fun r => decide (r.1 ≤ n ∧ n ≤ r.2)

def spaces : List (Nat × Nat) :=
  [(0x09, 0x0D), (0x1C, 0x20), (0x85, 0x85), (0xA0, 0xA0), (0x1680, 0x1680), (0x2000, 0x200A),
    (0x2028, 0x2029), (0x202F, 0x202F), (0x205F, 0x205F), (0x3000, 0x3000)]

/-- The characters of `str.isspace`, at which `split` and `strip` work. -/
def isSpace (c : PyChar) : Bool := inRanges spaces c.code

/-- The line boundaries of `str.splitlines`. -/
def isLineBreak (c : PyChar) : Bool :=
  inRanges [(0x0A, 0x0D), (0x1C, 0x1E), (0x85, 0x85), (0x2028, 0x2029)] c.code

/-- The zeros of the decimal digit blocks (general category `Nd`). -/
def zeros : List Nat :=
  [0x30, 0x660, 0x6F0, 0x7C0, 0x966, 0x9E6, 0xA66, 0xAE6, 0xB66, 0xBE6, 0xC66, 0xCE6, 0xD66,
    0xDE6, 0xE50, 0xED0, 0xF20, 0x1040, 0x1090, 0x17E0, 0x1810, 0x1946, 0x19D0, 0x1A80, 0x1A90,
    0x1B50, 0x1BB0, 0x1C40, 0x1C50, 0xA620, 0xA8D0, 0xA900, 0xA9D0, 0xA9F0, 0xAA50, 0xABF0,
    0xFF10, 0x104A0, 0x10D30, 0x11066, 0x110F0, 0x11136, 0x111D0, 0x112F0, 0x11450, 0x114D0,
    0x11650, 0x116C0, 0x11730, 0x118E0, 0x11950, 0x11C50, 0x11D50, 0x11DA0, 0x16A60, 0x16AC0,
    0x16B50, 0x1D7CE, 0x1D7D8, 0x1D7E2, 0x1D7EC, 0x1D7F6, 0x1E140, 0x1E2F0, 0x1E950, 0x1FBF0]

/-- The value of a decimal digit. -/
def decimal (c : PyChar) : Option Nat :=
  (zeros.find? fun z => decide (z ≤ c.code ∧ c.code ≤ z + 9)).map fun z => c.code - z

/-- Superscripts, circled digits and the like. -/
def otherDigits : List (Nat × Nat) :=
  [(0xB2, 0xB3), (0xB9, 0xB9), (0x1369, 0x1371), (0x19DA, 0x19DA), (0x2070, 0x2070),
    (0x2074, 0x2079), (0x2080, 0x2089), (0x2460, 0x2468), (0x2474, 0x247C), (0x2488, 0x2490),
    (0x24EA, 0x24EA), (0x24F5, 0x24FD), (0x24FF, 0x24FF), (0x2776, 0x277E), (0x2780, 0x2788),
    (0x278A, 0x2792), (0x10A40, 0x10A43), (0x10E60, 0x10E68), (0x11052, 0x1105A),
    (0x1F100, 0x1F10A)]

/-- The characters of `str.isdigit`; `int` rejects the other digits. -/
def isDigit (c : PyChar) : Bool := c.decimal.isSome || inRanges otherDigits c.code

def letters : List (Nat × Nat) := [(0x41, 0x5A), (0x5F, 0x5F), (0x61, 0x7A)]

/-- `[a-zA-Z_]`. -/
def isLetter (c : PyChar) : Bool := inRanges letters c.code

/-- `[a-zA-Z0-9_]`. -/
def isWordChar (c : PyChar) : Bool := inRanges ((0x30, 0x39) :: letters) c.code

/-- `str.upper` on one character, as far as a comparison with an ASCII string can
tell: these are the characters whose upper case is made of ASCII characters. -/
def upper : PyChar → PyStr
  | .scalar '\u00DF' => [.scalar 'S', .scalar 'S']
  | .scalar '\u0131' => [.scalar 'I']
  | .scalar '\u017F' => [.scalar 'S']
  | .scalar '\uFB00' => [.scalar 'F', .scalar 'F']
  | .scalar '\uFB01' => [.scalar 'F', .scalar 'I']
  | .scalar '\uFB02' => [.scalar 'F', .scalar 'L']
  | .scalar '\uFB03' => [.scalar 'F', .scalar 'F', .scalar 'I']
  | .scalar '\uFB04' => [.scalar 'F', .scalar 'F', .scalar 'L']
  | .scalar '\uFB05' => [.scalar 'S', .scalar 'T']
  | .scalar '\uFB06' => [.scalar 'S', .scalar 'T']
  | .scalar c => [.scalar c.toUpper]
  | .surrogate n => [.surrogate n]

end PyChar

namespace PyStr

def lit (s : String) : PyStr := s.toList.map .scalar

/-- A string without surrogates. -/
def string? (s : PyStr) : Option String := (s.mapM PyChar.scalar?).map String.ofList

/-- `s.encode('utf-8')`, which raises on a surrogate. -/
def encodeUtf8 : PyStr → Option (List UInt8)
  | [] => some []
  | .surrogate _ :: _ => none
  | .scalar c :: rest => (encodeUtf8 rest).map fun bs => String.utf8EncodeChar c ++ bs

/-- `cur` is the line read so far; `afterCr` says that the previous character was a
carriage return. -/
def splitlinesFrom (afterCr : Bool) (cur : PyStr) : PyStr → List PyStr
  | [] => if cur = [] then [] else [cur]
  | c :: rest =>
    -- the second half of a "\r\n"
    if afterCr ∧ c = .scalar '\n' then splitlinesFrom false cur rest
    else if c.isLineBreak then cur :: splitlinesFrom (c = .scalar '\r') [] rest
    else splitlinesFrom false (cur ++ [c]) rest

def splitlines (s : PyStr) : List PyStr := splitlinesFrom false [] s

/-- `s.split(sep)[0]` for a separator of one character. -/
def before (sep : PyChar) (s : PyStr) : PyStr := s.takeWhile (· ≠ sep)

def strip (s : PyStr) : PyStr := (s.dropWhile PyChar.isSpace).rdropWhile PyChar.isSpace

def upper (s : PyStr) : PyStr := s.flatMap PyChar.upper

/-- `s.split()`. -/
def split (s : PyStr) : List PyStr := (s.splitOnP PyChar.isSpace).filter (· ≠ [])

def isDigit (s : PyStr) : Bool := s ≠ [] && s.all PyChar.isDigit

/-- `int(s)` for a string of digits; `none` is the `ValueError` for a digit that is
not decimal. -/
def int? (s : PyStr) : Option Nat :=
  s.foldl (fun n c => n.bind fun n => c.decimal.map fun d => 10 * n + d) (some 0)

/-- `[a-zA-Z_][a-zA-Z0-9_]*`. -/
def Identifier : PyStr → Prop
  | [] => False
  | c :: rest => c.isLetter = true ∧ ∀ d ∈ rest, d.isWordChar = true

instance : (s : PyStr) → Decidable (Identifier s)
  | [] => isFalse id
  | _ :: rest => inferInstanceAs (Decidable (_ ∧ ∀ d ∈ rest, _))

end PyStr

/-! ## Character classes -/

namespace PyChar

theorem inRanges_eq_true {ranges : List (Nat × Nat)} {n : Nat} :
    inRanges ranges n = true ↔ ∃ r ∈ ranges, r.1 ≤ n ∧ n ≤ r.2 := by
  simp [inRanges]

theorem mem_zeros_of_decimal {c : PyChar} (h : c.decimal.isSome = true) :
    ∃ z ∈ zeros, z ≤ c.code ∧ c.code ≤ z + 9 := by
  rw [decimal, Option.isSome_map] at h
  obtain ⟨z, hz⟩ := Option.isSome_iff_exists.mp h
  have hin := List.find?_some hz
  exact ⟨z, List.mem_of_find?_eq_some hz, of_decide_eq_true hin⟩

/-- Ranges that lie apart have no character in common. -/
theorem inRanges_apart {ranges ranges' : List (Nat × Nat)} {n : Nat}
    (h : ∀ r ∈ ranges, ∀ r' ∈ ranges', r.2 < r'.1 ∨ r'.2 < r.1) (hn : inRanges ranges n = true) :
    inRanges ranges' n = false := by
  rw [← Bool.not_eq_true, inRanges_eq_true]
  intro hx
  obtain ⟨r', hr', hge', hle'⟩ := hx
  obtain ⟨r, hr, hge, hle⟩ := inRanges_eq_true.mp hn
  have := h r hr r' hr'
  omega

theorem isWordChar_of_isLetter {c : PyChar} (h : c.isLetter = true) : c.isWordChar = true := by
  obtain ⟨r, hr, hin⟩ := inRanges_eq_true.mp h
  exact inRanges_eq_true.mpr ⟨r, List.mem_cons_of_mem _ hr, hin⟩

theorem isDigit_of_isLetter {c : PyChar} (h : c.isLetter = true) : c.isDigit = false := by
  have hdecimal : c.decimal.isSome = false := by
    rw [← Bool.not_eq_true]
    intro hd
    obtain ⟨z, hz, hlow, hhigh⟩ := mem_zeros_of_decimal hd
    obtain ⟨r, hr, hge, hle⟩ := inRanges_eq_true.mp h
    have hapart : ∀ z ∈ zeros, ∀ r ∈ letters, z + 9 < r.1 ∨ r.2 < z := by decide
    have := hapart z hz r hr
    omega
  rw [isDigit, hdecimal, Bool.false_or]
  exact inRanges_apart (by decide) h

end PyChar

namespace PyStr

theorem identifier_wordChars {x : PyStr} (hx : Identifier x) :
    x ≠ [] ∧ ∀ c ∈ x, c.isWordChar = true := by
  cases x with
  | nil => exact hx.elim
  | cons c rest =>
    refine ⟨List.cons_ne_nil c rest, fun d hd => ?_⟩
    rcases List.mem_cons.mp hd with rfl | hd
    · exact PyChar.isWordChar_of_isLetter hx.1
    · exact hx.2 d hd

/-- The characters of a number are decimal digits. -/
theorem decimal_of_int? {digits : PyStr} {n : Nat} (h : int? digits = some n) :
    ∀ c ∈ digits, c.decimal.isSome = true := by
  induction digits using List.reverseRecOn generalizing n with
  | nil => nofun
  | append_singleton digits c ih =>
    rw [int?, List.foldl_append, List.foldl_cons, List.foldl_nil, Option.bind_eq_some_iff] at h
    obtain ⟨m, hm, hc⟩ := h
    intro d hd
    rcases List.mem_append.mp hd with hd | hd
    · exact ih hm d hd
    · rw [List.mem_singleton.mp hd, ← Option.isSome_map, hc]
      rfl

theorem int?_of_decimal {digits : PyStr} (h : ∀ c ∈ digits, c.decimal.isSome = true) :
    (int? digits).isSome = true := by
  induction digits using List.reverseRecOn with
  | nil => rfl
  | append_singleton digits c ih =>
    obtain ⟨n, hn⟩ := Option.isSome_iff_exists.mp (ih fun d hd => h d (List.mem_append_left _ hd))
    have hc := h c (List.mem_append_right _ List.mem_cons_self)
    rw [int?] at hn ⊢
    rw [List.foldl_append, hn, List.foldl_cons, List.foldl_nil, Option.bind_some, Option.isSome_map]
    exact hc

/-! ## Words and blanks -/

def Blank (s : PyStr) : Prop := ∀ c ∈ s, c.isSpace = true

/-- A maximal piece of a line between blanks. -/
def Word (s : PyStr) : Prop := s ≠ [] ∧ ∀ c ∈ s, c.isSpace = false

instance (s : PyStr) : Decidable (Blank s) := inferInstanceAs (Decidable (∀ c ∈ s, _))

instance (s : PyStr) : Decidable (Word s) := inferInstanceAs (Decidable (_ ∧ ∀ c ∈ s, _))

theorem Blank.nil : Blank [] := nofun

theorem Blank.tail {c : PyChar} {s : PyStr} (h : Blank (c :: s)) : Blank s :=
  fun d hd => h d (List.mem_cons_of_mem _ hd)

/-- A space ends a word. -/
theorem split_append_space (s t : PyStr) {c : PyChar} (hc : c.isSpace = true) :
    split (s ++ c :: t) = split s ++ split t := by
  unfold split
  rw [List.splitOnP_append_cons s t hc, List.filter_append]

@[simp] theorem split_nil : split [] = [] := rfl

theorem split_word {w : PyStr} (hw : Word w) : split w = [w] := by
  unfold split
  rw [List.splitOnP_eq_singleton hw.2]
  simp [hw.1]

theorem split_space (t : PyStr) {c : PyChar} (hc : c.isSpace = true) :
    split (c :: t) = split t := by
  have := split_append_space [] t hc
  rwa [List.nil_append, split_nil, List.nil_append] at this

theorem split_blank_append {pad : PyStr} (hpad : Blank pad) (t : PyStr) :
    split (pad ++ t) = split t := by
  induction pad with
  | nil => rfl
  | cons c pad ih =>
    rw [List.cons_append, split_space _ (hpad c List.mem_cons_self), ih hpad.tail]

theorem split_append_blank (s : PyStr) {pad : PyStr} (hpad : Blank pad) :
    split (s ++ pad) = split s := by
  cases pad with
  | nil => rw [List.append_nil]
  | cons c pad =>
    have hrest := split_blank_append hpad.tail []
    rw [List.append_nil, split_nil] at hrest
    rw [split_append_space _ _ (hpad c List.mem_cons_self), hrest, List.append_nil]

theorem split_blank {pad : PyStr} (hpad : Blank pad) : split pad = [] :=
  split_append_blank [] hpad

/-- Stripping takes off blanks only, and `split` does not see them. -/
theorem split_strip (s : PyStr) : split (strip s) = split s := by
  unfold strip
  have hleft : split s = split (s.dropWhile PyChar.isSpace) := by
    have hpad : Blank (s.takeWhile PyChar.isSpace) := fun c hc => List.mem_takeWhile_imp hc
    have := split_blank_append hpad (s.dropWhile PyChar.isSpace)
    rwa [List.takeWhile_append_dropWhile] at this
  rw [hleft]
  generalize s.dropWhile PyChar.isSpace = t
  have hpad : Blank (t.rtakeWhile PyChar.isSpace) := fun c hc => List.mem_rtakeWhile_imp hc
  have := split_append_blank (t.rdropWhile PyChar.isSpace) hpad
  rw [List.rdropWhile_append_rtakeWhile] at this
  exact this.symm

theorem blank_of_strip {s : PyStr} (h : strip s = []) : Blank s := by
  rw [strip, List.rdropWhile_eq_nil_iff] at h
  intro c hc
  rw [← List.takeWhile_append_dropWhile (p := PyChar.isSpace) (l := s), List.mem_append] at hc
  exact hc.elim List.mem_takeWhile_imp (h c)

theorem mem_splitOnPPrepend {p : PyChar → Bool} {s acc w : PyStr} {c : PyChar}
    (hw : w ∈ s.splitOnPPrepend p acc) (hc : c ∈ w) : c ∈ acc ∨ c ∈ s ∧ p c = false := by
  induction s generalizing acc with
  | nil =>
    rw [List.splitOnPPrepend_nil, List.mem_singleton] at hw
    exact Or.inl (List.mem_reverse.mp (hw ▸ hc))
  | cons d s ih =>
    cases hd : p d with
    | true =>
      rw [List.splitOnPPrepend_cons_pos hd] at hw
      rcases List.mem_cons.mp hw with rfl | hw
      · exact Or.inl (List.mem_reverse.mp hc)
      · rcases ih hw with hnil | ⟨hmem, hp⟩
        · cases hnil
        · exact Or.inr ⟨List.mem_cons_of_mem _ hmem, hp⟩
    | false =>
      rw [List.splitOnPPrepend_cons_neg hd] at hw
      rcases ih hw with hacc | ⟨hmem, hp⟩
      · rcases List.mem_cons.mp hacc with rfl | hacc
        · exact Or.inr ⟨List.mem_cons_self, hd⟩
        · exact Or.inl hacc
      · exact Or.inr ⟨List.mem_cons_of_mem _ hmem, hp⟩

/-- The words of a line are made of its characters, without the blanks. -/
theorem mem_of_mem_split {s w : PyStr} {c : PyChar} (hw : w ∈ split s) (hc : c ∈ w) :
    c ∈ s ∧ c.isSpace = false := by
  rcases mem_splitOnPPrepend (List.mem_of_mem_filter hw) hc with hnil | hmem
  · cases hnil
  · exact hmem

theorem word_of_identifier {x : PyStr} (hx : Identifier x) : Word x := by
  obtain ⟨hne, hword⟩ := identifier_wordChars hx
  exact ⟨hne, fun c hc => PyChar.inRanges_apart (by decide) (hword c hc)⟩

theorem word_of_int? {digits : PyStr} {n : Nat} (hne : digits ≠ []) (hn : int? digits = some n) :
    Word digits := by
  refine ⟨hne, fun c hc => ?_⟩
  obtain ⟨z, hz, hlow, hhigh⟩ := PyChar.mem_zeros_of_decimal (decimal_of_int? hn c hc)
  have hapart : ∀ z ∈ PyChar.zeros, ∀ r ∈ PyChar.spaces, z + 9 < r.1 ∨ r.2 < z := by decide
  have hin : PyChar.inRanges [(z, z + 9)] c.code = true :=
    PyChar.inRanges_eq_true.mpr ⟨_, List.mem_singleton_self _, hlow, hhigh⟩
  refine PyChar.inRanges_apart (fun r hr r' hr' => ?_) hin
  rw [List.mem_singleton.mp hr]
  exact hapart z hz r' hr'

/-- A line of words: blanks around each, at least one between two. -/
inductive Spaced : List PyStr → PyStr → Prop
  | blank {pad : PyStr} (hpad : Blank pad) : Spaced [] pad
  | last {pad w : PyStr} (hpad : Blank pad) (hw : Word w) : Spaced [w] (pad ++ w)
  | cons {pad w rest : PyStr} {c : PyChar} {ws : List PyStr} (hpad : Blank pad) (hw : Word w)
      (hc : c.isSpace = true) (hrest : Spaced ws rest) : Spaced (w :: ws) (pad ++ (w ++ c :: rest))

/-- Two words, with blanks around and between them. -/
theorem spaced_pair {lead w gap arg trail : PyStr} (hlead : Blank lead) (hw : Word w)
    (hne : gap ≠ []) (hgap : Blank gap) (harg : Word arg) (htrail : Blank trail) :
    Spaced [w, arg] (lead ++ (w ++ (gap ++ (arg ++ trail)))) := by
  cases gap with
  | nil => exact absurd rfl hne
  | cons c gap =>
    refine .cons hlead hw (hgap c List.mem_cons_self) ?_
    cases trail with
    | nil =>
      rw [List.append_nil]
      exact .last hgap.tail harg
    | cons d trail => exact .cons hgap.tail harg (htrail d List.mem_cons_self) (.blank htrail.tail)

/-- `split` reads the words of a line back. -/
theorem split_spaced {ws : List PyStr} {line : PyStr} (h : Spaced ws line) : split line = ws := by
  induction h with
  | blank hpad => exact split_blank hpad
  | last hpad hw => rw [split_blank_append hpad, split_word hw]
  | cons hpad hw hc _ ih =>
    rw [split_blank_append hpad, split_append_space _ _ hc, split_word hw, ih]
    rfl

/-- Characters that are neither blanks nor in a word are not in the line. -/
theorem not_mem_spaced {ws : List PyStr} {line : PyStr} (h : Spaced ws line) {c : PyChar}
    (hspace : c.isSpace = false) (hc : ∀ w ∈ ws, c ∉ w) : c ∉ line := by
  have hblank : ∀ {pad : PyStr}, Blank pad → c ∉ pad := fun hpad hmem => by
    rw [hpad c hmem] at hspace
    cases hspace
  induction h with
  | blank hpad => exact hblank hpad
  | last hpad hw => simp [hblank hpad, hc]
  | @cons pad w rest d ws hpad hw hd _ ih =>
    have hne : c ≠ d := fun he => by
      rw [he, hd] at hspace
      cases hspace
    have hrest := ih fun w' hw' => hc w' (List.mem_cons_of_mem _ hw')
    simp [hblank hpad, hc w, hne, hrest]

theorem before_append {sep : PyChar} {s : PyStr} (h : sep ∉ s) (t : PyStr) :
    before sep (s ++ sep :: t) = s := by
  have hs : ∀ c ∈ s, decide (c ≠ sep) = true := fun c hc => by
    simpa using fun he : c = sep => h (he ▸ hc)
  rw [before, List.takeWhile_append_of_pos hs]
  simp

theorem before_eq_self {sep : PyChar} {s : PyStr} (h : sep ∉ s) : before sep s = s := by
  rw [before, List.takeWhile_eq_self_iff]
  exact fun c hc => by simpa using fun he : c = sep => h (he ▸ hc)

/-! ## Lines -/

/-- No line contains a line boundary. -/
theorem not_lineBreak_of_mem_splitlinesFrom {s line cur : PyStr} {afterCr : Bool} {c : PyChar}
    (hcur : ∀ c ∈ cur, c.isLineBreak = false) (hline : line ∈ splitlinesFrom afterCr cur s)
    (hc : c ∈ line) : c.isLineBreak = false := by
  fun_induction splitlinesFrom afterCr cur s with
  | case1 => cases hline
  | case2 afterCr cur hne =>
    rw [List.mem_singleton.mp hline] at hc
    exact hcur c hc
  | case3 afterCr cur d rest hcr ih => exact ih hcur hline
  | case4 afterCr cur d rest hcr hd ih =>
    rcases List.mem_cons.mp hline with rfl | hline
    · exact hcur c hc
    · exact ih (fun _ he => absurd he List.not_mem_nil) hline
  | case5 afterCr cur d rest hcr hd ih =>
    refine ih (fun e he => ?_) hline
    rcases List.mem_append.mp he with he | he
    · exact hcur e he
    · rw [List.mem_singleton.mp he]
      exact Bool.eq_false_iff.mpr hd

theorem not_lineBreak_of_mem_splitlines {s line : PyStr} (hline : line ∈ splitlines s) :
    ∀ c ∈ line, c.isLineBreak = false :=
  fun _ => not_lineBreak_of_mem_splitlinesFrom (fun _ he => absurd he List.not_mem_nil) hline

/-- The text of the lines, each with its end. -/
def unlines (lines : List PyStr) : PyStr := lines.flatMap (· ++ [.scalar '\n'])

theorem splitlinesFrom_line {line : PyStr} (hline : ∀ c ∈ line, c.isLineBreak = false)
    (cur rest : PyStr) :
    splitlinesFrom false cur (line ++ .scalar '\n' :: rest) = (cur ++ line) :: splitlines rest := by
  have hbreak : PyChar.isLineBreak (.scalar '\n') = true := by decide
  have hcr : decide (PyChar.scalar '\n' = .scalar '\r') = false := by decide
  induction line generalizing cur with
  | nil =>
    rw [List.nil_append, splitlinesFrom, if_neg (by simp), if_pos hbreak, hcr, List.append_nil]
    rfl
  | cons c line ih =>
    have hc := hline c List.mem_cons_self
    rw [List.cons_append, splitlinesFrom, if_neg (by simp), if_neg (by simp [hc]),
      ih fun d hd => hline d (List.mem_cons_of_mem _ hd), List.append_assoc, List.singleton_append]

/-- Lines are read back from their text. -/
theorem splitlines_unlines {lines : List PyStr}
    (h : ∀ line ∈ lines, ∀ c ∈ line, c.isLineBreak = false) :
    splitlines (unlines lines) = lines := by
  induction lines with
  | nil => rfl
  | cons line lines ih =>
    rw [unlines, List.flatMap_cons, List.append_assoc, List.singleton_append, splitlines,
      splitlinesFrom_line (h line List.mem_cons_self), List.nil_append]
    exact congrArg (line :: ·) (ih fun l hl => h l (List.mem_cons_of_mem _ hl))

end PyStr

end PythonPortfolio.Library
