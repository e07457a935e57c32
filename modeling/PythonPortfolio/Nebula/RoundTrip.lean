import PythonPortfolio.Nebula.Grammar

/-!
# Reading a written query

A text writes the terminals of a query when it has them in order, keywords in any
letter case, with blanks between them and at least one between two words. Each
terminal is then what the first pattern that matches takes, so that the lexer gives
tokens that denote the terminals and the parser gives back the tree.
-/

namespace PythonPortfolio.Nebula

open Library

/-! ## Writing -/

def keywordTexts : List PyStr :=
  [PyStr.lit "MATCH", PyStr.lit "WHERE", PyStr.lit "RETURN", PyStr.lit "AND", PyStr.lit "OR"]

/-- An ASCII identifier that is not a keyword in any letter case. -/
def Name (w : PyStr) : Prop := PyStr.Identifier w ∧ PyStr.upper w ∉ keywordTexts

/-- A string that can stand between single quotes, or an integer. -/
def Writable : TokenValue → Prop
  | .str s => PyChar.scalar '\'' ∉ s
  | .int _ => True
  | .float _ => False

structure Query.Printable (q : Query) : Prop where
  varName : Name q.varName
  label : ∀ l ∈ q.label, Name l
  condition : ∀ c ∈ q.condition, Name c.varName ∧ Name c.property ∧ Writable c.literal
  returned : Name q.returned

/-- The texts of one terminal. -/
inductive Writes : Terminal → PyStr → Prop
  | keyword {k w : PyStr} (hw : PyStr.Identifier w) (hk : PyStr.upper w = k) : Writes (.keyword k) w
  | symbol (c : Char) : Writes (.symbol c) [.scalar c]
  | name (w : PyStr) : Writes (.name w) w
  | int {n : Nat} {digits : PyStr} (hne : digits ≠ []) (hn : PyStr.int? digits = some n) :
      Writes (.literal (.int n)) digits
  | str {s : PyStr} {quote : Char} (hquote : quote = '\'' ∨ quote = '"')
      (hs : PyChar.scalar quote ∉ s) :
      Writes (.literal (.str s)) (.scalar quote :: (s ++ [.scalar quote]))

/-- The text begins and ends with a character of a word. -/
def Terminal.wordy : Terminal → Bool
  | .keyword _ | .name _ | .literal (.int _) => true
  | _ => false

/-- A blank must stand between two words. An integer before a dot would take it, which
happens in no query. -/
def MustPart (t u : Terminal) : Prop :=
  (t.wordy = true ∧ u.wordy = true) ∨ ((∃ n, t = .literal (.int n)) ∧ u = .symbol '.')

/-- A text that writes the terminals, behind the terminal `before`. -/
inductive Written : Option Terminal → List Terminal → PyStr → Prop
  | done {before : Option Terminal} {pad : PyStr} (hpad : PyStr.Blank pad) : Written before [] pad
  | next {before : Option Terminal} {t : Terminal} {ts : List Terminal} {pad w rest : PyStr}
      (hpad : PyStr.Blank pad) (hgap : ∀ b ∈ before, MustPart b t → pad ≠ []) (hw : Writes t w)
      (hrest : Written (some t) ts rest) : Written before (t :: ts) (pad ++ (w ++ rest))

/-! ## The first pattern that matches -/

namespace Lexer

variable {W : WordChars} {prev : Option PyChar} {c : PyChar} {s rest w : PyStr}

/-- Every keyword is a word of capital letters. -/
theorem letter_isLetter {k : List Char} (hk : k ∈ keywords) {a : Char} (ha : a ∈ k)
    (hc : Regex.letter a c = true) : c.isLetter = true := by
  have hall : keywords.all (fun k => k.all fun a =>
      (PyChar.scalar a).isLetter && (PyChar.scalar a.toLower).isLetter) = true := by decide
  simp only [List.all_eq_true, Bool.and_eq_true] at hall
  have hc' : c = .scalar a ∨ c = .scalar a.toLower := by simpa [Regex.letter] using hc
  rcases hc' with rfl | rfl
  · exact (hall k hk a ha).1
  · exact (hall k hk a ha).2

theorem keyword_letters {k : List Char} (hk : k ∈ keywords) {m : PyStr}
    (hm : List.Forall₂ (fun a c => Regex.letter a c = true) k m) :
    m ≠ [] ∧ ∀ c ∈ m, c.isLetter = true := by
  constructor
  · intro hnil
    have hlength := hm.length_eq
    have hall : ∀ k ∈ keywords, k.length ≠ 0 := by decide
    rw [hnil] at hlength
    exact hall k hk hlength
  · intro c hc
    obtain ⟨i, hi, rfl⟩ := List.mem_iff_getElem.mp hc
    have hik : i < k.length := by rw [hm.length_eq]; exact hi
    exact letter_isLetter hk (List.getElem_mem hik) (hm.get hik hi)

/-- The upper case of an ASCII letter or digit, which is a character it is a case of. -/
theorem upper_wordChar (h : c.isWordChar = true) :
    ∃ a : Char, PyChar.upper c = [.scalar a] ∧ Regex.letter a c = true := by
  have hall : ∀ n < 128, (PyChar.scalar (Char.ofNat n)).isWordChar = true →
      PyChar.upper (.scalar (Char.ofNat n)) = [.scalar (Char.ofNat n).toUpper] ∧
        Regex.letter (Char.ofNat n).toUpper (.scalar (Char.ofNat n)) = true := by decide +kernel
  obtain ⟨r, hr, hge, hle⟩ := PyChar.inRanges_eq_true.mp h
  have hlow : ∀ r ∈ ((0x30, 0x39) :: PyChar.letters : List (Nat × Nat)), r.2 < 128 := by decide
  have := hlow r hr
  cases c with
  | scalar a =>
    have ha : a.toNat < 128 := lt_of_le_of_lt hle this
    have := hall a.toNat ha
    rw [Char.ofNat_toNat] at this
    exact ⟨a.toUpper, this h⟩
  | surrogate n =>
    have : PyChar.code (.surrogate n) = 0xD800 + n := rfl
    omega

theorem letters_of_upper (hw : ∀ c ∈ w, c.isWordChar = true) {k : List Char}
    (h : PyStr.upper w = k.map PyChar.scalar) :
    List.Forall₂ (fun a c => Regex.letter a c = true) k w := by
  induction w generalizing k with
  | nil =>
    obtain rfl : k = [] := by simpa [PyStr.upper] using h
    exact .nil
  | cons c w ih =>
    obtain ⟨a, ha, hletter⟩ := upper_wordChar (hw c List.mem_cons_self)
    rw [PyStr.upper, List.flatMap_cons, ha] at h
    cases k with
    | nil => cases h
    | cons b k =>
      obtain ⟨hab, hrest⟩ := List.cons.inj h
      cases hab
      exact .cons hletter (ih (fun d hd => hw d (List.mem_cons_of_mem _ hd)) hrest)

theorem upper_of_letters {k : List Char} (hk : k ∈ keywords)
    (h : List.Forall₂ (fun a c => Regex.letter a c = true) k w) :
    PyStr.upper w = k.map PyChar.scalar := by
  have hall : keywords.all (fun k => k.all fun a =>
      PyChar.upper (.scalar a) = [.scalar a] && PyChar.upper (.scalar a.toLower) = [.scalar a])
        = true := by decide
  simp only [List.all_eq_true, Bool.and_eq_true, decide_eq_true_eq] at hall
  have hk' := hall k hk
  clear hk hall
  induction h with
  | nil => rfl
  | @cons a c k w hletter _ ih =>
    have hc : PyChar.upper c = [.scalar a] := by
      have hc' : c = .scalar a ∨ c = .scalar a.toLower := by simpa [Regex.letter] using hletter
      rcases hc' with rfl | rfl
      · exact (hk' a List.mem_cons_self).1
      · exact (hk' a List.mem_cons_self).2
    rw [PyStr.upper, List.flatMap_cons, hc, List.map_cons]
    exact congrArg _ (ih fun b hb => hk' b (List.mem_cons_of_mem _ hb))

theorem mem_keywordTexts {k : PyStr} :
    k ∈ keywordTexts ↔ ∃ k' ∈ keywords, k = k'.map PyChar.scalar := by
  have heq : keywordTexts = keywords.map fun k => k.map PyChar.scalar := rfl
  rw [heq, List.mem_map]
  exact exists_congr fun _ => and_congr_right fun _ => eq_comm

/-- The keyword pattern takes a whole word, and only a keyword. -/
theorem mem_ends_keyword {m t : PyStr} (hw : PyStr.Identifier w)
    (hprev : prev.any W.word = false) (hrest : rest.head?.any W.word = false) :
    (m, t) ∈ Regex.ends W keywordPattern prev (w ++ rest) ↔
      PyStr.upper w ∈ keywordTexts ∧ m = w ∧ t = rest := by
  obtain ⟨hne, hchars⟩ := PyStr.identifier_wordChars hw
  have hword : ∀ c ∈ w, W.word c = true := fun c hc => WordChars.word_of_isWordChar (hchars c hc)
  have hstart : (w ++ rest).head?.any W.word = true := by
    obtain ⟨c, w, rfl⟩ := List.exists_cons_of_ne_nil hne
    exact hword c List.mem_cons_self
  rw [keywordPattern, Regex.mem_ends_seq]
  constructor
  · intro hx
    obtain ⟨m₁, t₁, m₂, h₁, h₂, rfl⟩ := hx
    obtain ⟨-, rfl, rfl⟩ := Regex.mem_ends_boundary.mp h₁
    obtain ⟨m₃, t₃, m₄, h₃, h₄, rfl⟩ := Regex.mem_ends_seq.mp h₂
    obtain ⟨⟨k, hk, hletters⟩, hcut⟩ := Regex.mem_ends_anyWord.mp h₃
    obtain ⟨hboundary, rfl, rfl⟩ := Regex.mem_ends_boundary.mp h₄
    obtain ⟨hne₃, hletter₃⟩ := keyword_letters hk hletters
    have hword₃ : ∀ c ∈ m₃, W.word c = true := fun c hc =>
      WordChars.word_of_isWordChar (PyChar.isWordChar_of_isLetter (hletter₃ c hc))
    have ht : t.head?.any W.word = false := by
      rw [Regex.atBoundary, Regex.any_last hne₃ hword₃] at hboundary
      simpa using hboundary
    obtain ⟨rfl, rfl⟩ := Regex.word_cut_unique hword₃ ht hword hrest hcut
    refine ⟨mem_keywordTexts.mpr ⟨k, hk, upper_of_letters hk hletters⟩, ?_, rfl⟩
    simp
  · intro hx
    obtain ⟨hkeyword, rfl, rfl⟩ := hx
    obtain ⟨k, hk, hupper⟩ := mem_keywordTexts.mp hkeyword
    refine ⟨[], m ++ t, m, ?_, Regex.mem_ends_seq.mpr ⟨m, t, [], ?_, ?_, by simp⟩, rfl⟩
    · exact Regex.mem_ends_boundary.mpr ⟨Regex.atBoundary_start hprev hstart, rfl, rfl⟩
    · exact Regex.mem_ends_anyWord.mpr ⟨⟨k, hk, letters_of_upper hchars hupper⟩, rfl⟩
    · refine Regex.mem_ends_boundary.mpr ⟨?_, rfl, rfl⟩
      exact Regex.atBoundary_end (Regex.any_last hne hword) hrest

theorem match?_keyword (hw : PyStr.Identifier w) (hkeyword : PyStr.upper w ∈ keywordTexts)
    (hprev : prev.any W.word = false) (hrest : rest.head?.any W.word = false) :
    Regex.match? W keywordPattern prev (w ++ rest) = some (w, rest) := by
  have hmem : (w, rest) ∈ Regex.ends W keywordPattern prev (w ++ rest) :=
    (mem_ends_keyword hw hprev hrest).mpr ⟨hkeyword, rfl, rfl⟩
  rw [Regex.match?]
  cases hends : Regex.ends W keywordPattern prev (w ++ rest) with
  | nil =>
    rw [hends] at hmem
    cases hmem
  | cons m ms =>
    have hm : (m.1, m.2) ∈ Regex.ends W keywordPattern prev (w ++ rest) := by simp [hends]
    obtain ⟨-, h₁, h₂⟩ := (mem_ends_keyword hw hprev hrest).mp hm
    exact congrArg some (Prod.ext h₁ h₂)

theorem keyword_nil_of_name (hw : Name w) (hprev : prev.any W.word = false)
    (hrest : rest.head?.any W.word = false) :
    Regex.ends W keywordPattern prev (w ++ rest) = [] := by
  rw [List.eq_nil_iff_forall_not_mem]
  intro m hm
  exact hw.2 ((mem_ends_keyword (m := m.1) (t := m.2) hw.1 hprev hrest).mp hm).1

/-! ### Patterns that fail at the first character -/

theorem keyword_nil (hc : c.isLetter = false) :
    Regex.ends W keywordPattern prev (c :: s) = [] := by
  refine Regex.ends_boundary_seq_nil (Regex.ends_seq_nil ?_)
  rw [List.eq_nil_iff_forall_not_mem]
  rintro ⟨m, t⟩ hm
  obtain ⟨⟨k, hk, hletters⟩, hcut⟩ := Regex.mem_ends_anyWord.mp hm
  obtain ⟨hne, hletter⟩ := keyword_letters hk hletters
  obtain ⟨d, m, rfl⟩ := List.exists_cons_of_ne_nil hne
  obtain ⟨rfl, -⟩ := List.cons.inj hcut
  rw [hletter d List.mem_cons_self] at hc
  cases hc

theorem number_nil (hc : digit c = false) : Regex.ends W numberPattern prev (c :: s) = [] :=
  Regex.ends_boundary_seq_nil (Regex.ends_seq_nil (Regex.ends_seq_nil (Regex.ends_char_nil hc)))

theorem quoted_nil {quote : Char} (hc : c ≠ .scalar quote) :
    Regex.ends W (quoted quote) prev (c :: s) = [] :=
  Regex.ends_seq_nil (Regex.ends_char_nil (by simpa using hc))

theorem string_nil (h : c ≠ .scalar '\'') (h' : c ≠ .scalar '"') :
    Regex.ends W stringPattern prev (c :: s) = [] := by
  rw [stringPattern, Regex.ends_alt, quoted_nil h, quoted_nil h']
  rfl

theorem identifier_nil (hc : nameStart c = false) :
    Regex.ends W identifierPattern prev (c :: s) = [] :=
  Regex.ends_boundary_seq_nil (Regex.ends_seq_nil (Regex.ends_char_nil hc))

theorem digit_of_isLetter (hc : c.isLetter = true) : digit c = false := by
  have := PyChar.isDigit_of_isLetter hc
  rw [PyChar.isDigit, Bool.or_eq_false_iff] at this
  exact this.1

theorem isLetter_of_digit (hc : digit c = true) : c.isLetter = false := by
  rw [← Bool.not_eq_true]
  intro hletter
  rw [digit_of_isLetter hletter] at hc
  cases hc

/-! ### The five kinds of terminals -/

section Order

variable {type : TokenType} {r : Regex} {ps : List (TokenType × Regex)} {m : PyStr × PyStr}

theorem findSome?_skip (h : Regex.ends W r prev s = []) :
    (((type, r) :: ps).findSome? fun p => (p.2.match? W prev s).map fun m => (p.1, m)) =
      ps.findSome? fun p => (p.2.match? W prev s).map fun m => (p.1, m) := by
  rw [List.findSome?_cons, Regex.match?_eq_none h]
  rfl

theorem findSome?_take (h : r.match? W prev s = some m) :
    (((type, r) :: ps).findSome? fun p => (p.2.match? W prev s).map fun m => (p.1, m)) =
      some (type, m) := by
  rw [List.findSome?_cons, h]
  rfl

end Order

theorem firstMatch_keyword (hw : PyStr.Identifier w) (hkeyword : PyStr.upper w ∈ keywordTexts)
    (hprev : prev.any W.word = false) (hrest : rest.head?.any W.word = false) :
    firstMatch W prev (w ++ rest) = some (.keyword, w, rest) :=
  findSome?_take (match?_keyword hw hkeyword hprev hrest)

theorem head?_any_false {p q : PyChar → Bool} (h : rest.head?.any p = false)
    (hpq : ∀ c, q c = true → p c = true) : rest.head?.any q = false := by
  cases rest with
  | nil => rfl
  | cons c rest =>
    rw [List.head?_cons, Option.any_some] at h ⊢
    rw [← Bool.not_eq_true]
    intro hq
    rw [hpq c hq] at h
    cases h

/-- A run of digits that no dot follows. -/
theorem firstMatch_number (hne : w ≠ []) (hw : ∀ c ∈ w, c.decimal.isSome = true)
    (hprev : prev.any W.word = false) (hrest : rest.head?.any W.word = false)
    (hdot : rest.head?.any (· = PyChar.scalar '.') = false) :
    firstMatch W prev (w ++ rest) = some (.number, w, rest) := by
  obtain ⟨c, w, rfl⟩ := List.exists_cons_of_ne_nil hne
  have hword : ∀ d ∈ c :: w, W.word d = true := fun d hd => WordChars.word_of_decimal (hw d hd)
  have hnodigit : rest.head?.any digit = false :=
    head?_any_false hrest fun _ => WordChars.word_of_decimal
  have hstart : Regex.match? W .boundary prev (c :: w ++ rest) = some ([], c :: w ++ rest) :=
    Regex.match?_boundary (Regex.atBoundary_start hprev (hword c List.mem_cons_self))
  have hdigits : Regex.match? W (.plus digit) prev (c :: w ++ rest) = some ([c] ++ w, rest) :=
    Regex.match?_seq (Regex.match?_char (hw c List.mem_cons_self))
      (Regex.match?_star (fun d hd => hw d (List.mem_cons_of_mem _ hd)) hnodigit)
  have hopt : ∀ prev, Regex.match? W (.opt (· = .scalar '.')) prev rest = some ([], rest) := by
    intro prev
    rw [Regex.opt, Regex.match?_alt_right (Regex.ends_char_nil hdot)]
    rfl
  have hstar : ∀ prev, Regex.match? W (.star digit) prev rest = some ([], rest) := fun prev =>
    Regex.match?_star (m := []) nofun hnodigit
  have hlast : Regex.match? W .boundary (Regex.last prev (c :: w)) rest = some ([], rest) :=
    Regex.match?_boundary (Regex.atBoundary_end (Regex.any_last (List.cons_ne_nil c w) hword) hrest)
  have hmatch : Regex.match? W numberPattern prev (c :: w ++ rest) = some (c :: w, rest) := by
    rw [numberPattern]
    simpa using Regex.match?_seq hstart (Regex.match?_seq hdigits (Regex.match?_seq (hopt _)
      (Regex.match?_seq (hstar _) hlast)))
  rw [firstMatch, patterns, findSome?_skip, findSome?_take hmatch]
  exact keyword_nil (isLetter_of_digit (hw c List.mem_cons_self))

/-- A string between quotes that are not in it. -/
theorem firstMatch_string {quote : Char} (hquote : quote = '\'' ∨ quote = '"')
    (hs : PyChar.scalar quote ∉ s) :
    firstMatch W prev (.scalar quote :: (s ++ [.scalar quote]) ++ rest) =
      some (.string, .scalar quote :: (s ++ [.scalar quote]), rest) := by
  have hmatch : Regex.match? W (quoted quote) prev
      (.scalar quote :: (s ++ [.scalar quote]) ++ rest) =
      some (.scalar quote :: (s ++ [.scalar quote]), rest) := by
    have hopen : ∀ t, Regex.match? W (.char (· = .scalar quote)) prev (.scalar quote :: t) =
        some ([.scalar quote], t) := fun t => Regex.match?_char (by simp)
    have hstar : ∀ prev, Regex.match? W (.star (· ≠ .scalar quote)) prev
        (s ++ .scalar quote :: rest) = some (s, .scalar quote :: rest) := by
      intro prev
      refine Regex.match?_star (fun c hc => ?_) (by simp)
      simpa using fun he : c = .scalar quote => hs (he ▸ hc)
    have hclose : ∀ prev, Regex.match? W (.char (· = .scalar quote)) prev (.scalar quote :: rest) =
        some ([.scalar quote], rest) := fun prev => Regex.match?_char (by simp)
    rw [quoted]
    simpa using Regex.match?_seq (hopen _) (Regex.match?_seq (hstar _) (hclose _))
  have hstring : Regex.match? W stringPattern prev
      (.scalar quote :: (s ++ [.scalar quote]) ++ rest) =
      some (.scalar quote :: (s ++ [.scalar quote]), rest) := by
    rw [stringPattern]
    rcases hquote with rfl | rfl
    · exact Regex.match?_alt_left hmatch
    · rw [List.cons_append, Regex.match?_alt_right (quoted_nil (by decide))]
      exact hmatch
  rw [firstMatch, patterns, findSome?_skip, findSome?_skip, findSome?_take hstring]
  · rcases hquote with rfl | rfl <;> exact number_nil (by decide)
  · rcases hquote with rfl | rfl <;> exact keyword_nil (by decide)

theorem firstMatch_name (hw : Name w) (hprev : prev.any W.word = false)
    (hrest : rest.head?.any W.word = false) :
    firstMatch W prev (w ++ rest) = some (.identifier, w, rest) := by
  have hkeyword := keyword_nil_of_name hw hprev hrest
  obtain ⟨c, w, rfl⟩ := List.exists_cons_of_ne_nil (PyStr.identifier_wordChars hw.1).1
  obtain ⟨hletter, hchars⟩ := hw.1
  have hall := (PyStr.identifier_wordChars hw.1).2
  have hword : ∀ d ∈ c :: w, W.word d = true := fun d hd =>
    WordChars.word_of_isWordChar (hall d hd)
  have hname : rest.head?.any nameChar = false := by
    refine head?_any_false hrest fun d hd => ?_
    rw [nameChar, Bool.or_eq_true, decide_eq_true_eq] at hd
    exact hd.elim WordChars.word_of_isWordChar WordChars.word_of_folded
  have hstart : Regex.match? W .boundary prev (c :: w ++ rest) = some ([], c :: w ++ rest) :=
    Regex.match?_boundary (Regex.atBoundary_start hprev (hword c List.mem_cons_self))
  have hfirst : ∀ prev, Regex.match? W (.char nameStart) prev (c :: w ++ rest) =
      some ([c], w ++ rest) := fun prev => Regex.match?_char (by simp [nameStart, hletter])
  have hmore : ∀ prev, Regex.match? W (.star nameChar) prev (w ++ rest) = some (w, rest) :=
    fun prev => Regex.match?_star (fun d hd => by simp [nameChar, hchars d hd]) hname
  have hlast : Regex.match? W .boundary (Regex.last (Regex.last prev [c]) w) rest =
      some ([], rest) := by
    rw [Regex.last_last]
    exact Regex.match?_boundary
      (Regex.atBoundary_end (Regex.any_last (List.cons_ne_nil c w) hword) hrest)
  have hmatch : Regex.match? W identifierPattern prev (c :: w ++ rest) = some (c :: w, rest) := by
    rw [identifierPattern]
    simpa using Regex.match?_seq hstart (Regex.match?_seq (hfirst _)
      (Regex.match?_seq (hmore _) hlast))
  have hquotes : (PyChar.scalar '\'').isLetter = false ∧ (PyChar.scalar '"').isLetter = false := by
    decide
  rw [firstMatch, patterns, findSome?_skip hkeyword, findSome?_skip, findSome?_skip,
    findSome?_take hmatch]
  · refine string_nil (fun he => ?_) fun he => ?_
    · rw [he, hquotes.1] at hletter
      cases hletter
    · rw [he, hquotes.2] at hletter
      cases hletter
  · exact number_nil (digit_of_isLetter hletter)

theorem firstMatch_symbol (hc : c ∈ symbols) :
    firstMatch W prev (c :: rest) = some (.symbol, [c], rest) := by
  have hall : ∀ c ∈ symbols, c.isLetter = false ∧ digit c = false ∧ c ≠ .scalar '\'' ∧
      c ≠ .scalar '"' ∧ nameStart c = false := by decide
  obtain ⟨hletter, hdigit, hsingle, hdouble, hname⟩ := hall c hc
  have hmatch : Regex.match? W symbolPattern prev (c :: rest) = some ([c], rest) :=
    Regex.match?_char (by simpa using hc)
  rw [firstMatch, patterns, findSome?_skip (keyword_nil hletter),
    findSome?_skip (number_nil hdigit), findSome?_skip (string_nil hsingle hdouble),
    findSome?_skip (identifier_nil hname), findSome?_take hmatch]

end Lexer

/-! ## The tokens of a written text -/

/-- The terminal is one the lexer knows. -/
def Terminal.Lexical : Terminal → Prop
  | .keyword k => k ∈ keywordTexts
  | .symbol c => PyChar.scalar c ∈ Lexer.symbols
  | .name w => Name w
  | .literal _ => True

section Written

variable {W : WordChars} {t : Terminal} {ts : List Terminal} {before : Option Terminal}
  {w rest s : PyStr}

theorem identifier_head (hw : PyStr.Identifier w) : ∃ c w', w = c :: w' ∧ c.isSpace = false := by
  obtain ⟨c, w, rfl⟩ := List.exists_cons_of_ne_nil (PyStr.identifier_wordChars hw).1
  refine ⟨c, w, rfl, ?_⟩
  exact PyChar.inRanges_apart (by decide) hw.1

theorem decimal_not_space {c : PyChar} (hc : c.decimal.isSome = true) : c.isSpace = false := by
  rw [← Bool.not_eq_true]
  intro hspace
  have := WordChars.least.not_space c hspace
  rw [WordChars.least.of_decimal c hc] at this
  cases this

/-- The token that a written terminal becomes. -/
theorem first_token {prev : Option PyChar} (ht : t.Lexical) (hw : Writes t w)
    (hprev : t.wordy = true → prev.any W.word = false)
    (hrest : t.wordy = true → rest.head?.any W.word = false)
    (hdot : ∀ n, t = .literal (.int n) → rest.head?.any (· = PyChar.scalar '.') = false) :
    ∃ type value c w', w = c :: w' ∧ c.isSpace = false ∧
      Lexer.firstMatch W prev (w ++ rest) = some (type, w, rest) ∧
      Lexer.tokenValue type w = .ok value ∧ ∀ pos, (⟨type, value, pos⟩ : Token).Denotes t := by
  cases hw with
  | keyword hid hk =>
    obtain ⟨c, w', heq, hspace⟩ := identifier_head hid
    exact ⟨.keyword, .str w, c, w', heq, hspace,
      Lexer.firstMatch_keyword hid (hk ▸ ht) (hprev rfl) (hrest rfl), rfl,
      fun _ => ⟨rfl, w, rfl, hk⟩⟩
  | symbol c =>
    have hall : ∀ c ∈ Lexer.symbols, c.isSpace = false := by decide
    exact ⟨.symbol, .str [.scalar c], .scalar c, [], rfl, hall _ ht, Lexer.firstMatch_symbol ht,
      rfl, fun _ => ⟨rfl, rfl⟩⟩
  | name =>
    obtain ⟨c, w', heq, hspace⟩ := identifier_head ht.1
    exact ⟨.identifier, .str w, c, w', heq, hspace,
      Lexer.firstMatch_name ht (hprev rfl) (hrest rfl), rfl, fun _ => ⟨rfl, rfl⟩⟩
  | @int n _ hne hn =>
    have hdecimal := PyStr.decimal_of_int? hn
    have hnodot : PyChar.scalar '.' ∉ w := fun hmem => by
      have := hdecimal _ hmem
      revert this
      decide
    obtain ⟨c, w', rfl⟩ := List.exists_cons_of_ne_nil hne
    refine ⟨.number, .int n, c, w', rfl, decimal_not_space (hdecimal c List.mem_cons_self),
      Lexer.firstMatch_number hne hdecimal (hprev rfl) (hrest rfl) (hdot n rfl), ?_,
      fun _ => ⟨Or.inr rfl, rfl⟩⟩
    simp only [Lexer.tokenValue, if_neg hnodot, hn]
  | @str s quote hquote hs =>
    refine ⟨.string, .str s, .scalar quote, s ++ [.scalar quote], rfl, ?_,
      Lexer.firstMatch_string hquote hs, ?_, fun _ => ⟨Or.inl rfl, rfl⟩⟩
    · rcases hquote with rfl | rfl <;> decide
    · simp [Lexer.tokenValue]

/-- What stands behind a terminal that is not a word ends no word. -/
theorem last_not_word (prev : Option PyChar) (ht : t.Lexical) (hw : Writes t w)
    (hwordy : t.wordy = false) : (Regex.last prev w).any W.word = false := by
  have hsymbols : ∀ c ∈ Lexer.symbols, c.code < 128 ∧ c.isWordChar = false := by decide
  have hquotes : ∀ quote : Char, quote = '\'' ∨ quote = '"' →
      (PyChar.scalar quote).code < 128 ∧ (PyChar.scalar quote).isWordChar = false := by
    intro quote hquote
    rcases hquote with rfl | rfl <;> decide
  cases hw with
  | keyword | name | int => cases hwordy
  | symbol c =>
    obtain ⟨hascii, hc⟩ := hsymbols _ ht
    rw [Regex.last, List.getLast?_singleton, Option.some_or, Option.any_some,
      WordChars.word_ascii hascii, hc]
  | @str s quote hquote =>
    obtain ⟨hascii, hc⟩ := hquotes quote hquote
    have hlast : (PyChar.scalar quote :: (s ++ [.scalar quote])).getLast? =
        some (.scalar quote) := by
      rw [← List.cons_append, List.getLast?_concat]
    rw [Regex.last, hlast, Option.some_or, Option.any_some, WordChars.word_ascii hascii, hc]

theorem blank_head {pad : PyStr} {c : PyChar} (hpad : PyStr.Blank (c :: pad)) :
    W.word c = false ∧ c ≠ .scalar '.' := by
  have hc := hpad c List.mem_cons_self
  refine ⟨WordChars.word_of_isSpace hc, fun he => ?_⟩
  rw [he] at hc
  revert hc
  decide

/-- Behind a word stands something else, and behind an integer no dot. -/
theorem written_head (h : Written (some t) ts rest) (hlex : ∀ u ∈ ts, u.Lexical)
    (hwordy : t.wordy = true) : rest.head?.any W.word = false ∧
      ∀ n, t = .literal (.int n) → rest.head?.any (· = PyChar.scalar '.') = false := by
  have hblank : ∀ {pad : PyStr} {c : PyChar} (s : PyStr), PyStr.Blank (c :: pad) →
      (c :: s).head?.any W.word = false ∧
        ∀ n, t = .literal (.int n) → (c :: s).head?.any (· = PyChar.scalar '.') = false := by
    intro pad c s hpad
    obtain ⟨hword, hdot⟩ := blank_head (W := W) hpad
    exact ⟨by simpa using hword, fun _ _ => by simpa using hdot⟩
  cases h with
  | @done _ pad hpad =>
    cases rest with
    | nil => exact ⟨rfl, fun _ _ => rfl⟩
    | cons c pad => exact hblank pad hpad
  | @next _ u us pad w later hpad hgap hw hrest =>
    cases pad with
    | cons c pad => exact hblank _ hpad
    | nil =>
      have hpart : ¬ MustPart t u := fun hpart => hgap t rfl hpart rfl
      have hlexical := hlex u List.mem_cons_self
      rw [List.nil_append]
      cases hw with
      | keyword | name | int => exact absurd (Or.inl ⟨hwordy, rfl⟩) hpart
      | symbol c =>
        have hall : ∀ c ∈ Lexer.symbols, c.code < 128 ∧ c.isWordChar = false := by decide
        obtain ⟨hascii, hc⟩ := hall _ hlexical
        refine ⟨?_, fun n hn => ?_⟩
        · simpa using (WordChars.word_ascii hascii).trans hc
        · have hne : c ≠ '.' := fun he => hpart (Or.inr ⟨⟨n, hn⟩, he ▸ rfl⟩)
          simpa using hne
      | @str s quote hquote =>
        have hascii : (PyChar.scalar quote).code < 128 ∧
            (PyChar.scalar quote).isWordChar = false ∧ quote ≠ '.' := by
          rcases hquote with rfl | rfl <;> decide
        refine ⟨?_, fun _ _ => ?_⟩
        · simpa using (WordChars.word_ascii hascii.1).trans hascii.2.1
        · simpa using hascii.2.2

theorem tokenizeFrom_blank {pad : PyStr} (hpad : PyStr.Blank pad) (prev : Option PyChar)
    (fuel pos : Nat) (s : PyStr) : Lexer.tokenizeFrom W (fuel + pad.length) prev pos (pad ++ s) =
      Lexer.tokenizeFrom W fuel (Regex.last prev pad) (pos + pad.length) s := by
  induction pad generalizing prev pos with
  | nil => rfl
  | cons c pad ih =>
    rw [List.length_cons, ← Nat.add_assoc, List.cons_append, Lexer.tokenizeFrom,
      if_pos (hpad c List.mem_cons_self), ih hpad.tail]
    have hlast : Regex.last (some c) pad = Regex.last prev (c :: pad) :=
      Regex.last_last (m := [c])
    rw [hlast]
    congr 1
    omega

/-- The lexer turns a written text into tokens that denote its terminals. -/
theorem tokenizeFrom_written (h : Written before ts s) (hlex : ∀ t ∈ ts, t.Lexical)
    (prev : Option PyChar) (hprev : (∀ b ∈ before, b.wordy = false) → prev.any W.word = false)
    (fuel pos : Nat) (hfuel : s.length ≤ fuel) :
    ∃ tokens, Lexer.tokenizeFrom W fuel prev pos s = some (.ok tokens) ∧
      List.Forall₂ Token.Denotes tokens ts := by
  induction h generalizing prev fuel pos with
  | @done _ pad hpad =>
    obtain ⟨fuel, rfl⟩ := Nat.exists_eq_add_of_le' hfuel
    have hskip := tokenizeFrom_blank (W := W) hpad prev fuel pos []
    rw [List.append_nil] at hskip
    refine ⟨[], ?_, .nil⟩
    rw [hskip]
    cases fuel <;> rfl
  | @next before t ts pad w rest hpad hgap hw hrest ih =>
    have hlexical := hlex t List.mem_cons_self
    have hlex' : ∀ u ∈ ts, u.Lexical := fun u hu => hlex u (List.mem_cons_of_mem _ hu)
    have hprev' : t.wordy = true → (Regex.last prev pad).any W.word = false := by
      intro hwordy
      by_cases hne : pad = []
      · rw [hne]
        refine hprev fun b hb => ?_
        rw [← Bool.not_eq_true]
        exact fun hb' => hgap b hb (Or.inl ⟨hb', hwordy⟩) hne
      · rw [Regex.last, List.getLast?_eq_some_getLast hne, Option.some_or, Option.any_some]
        exact WordChars.word_of_isSpace (hpad _ (List.getLast_mem hne))
    have hhead := fun hwordy => written_head (W := W) hrest hlex' hwordy
    obtain ⟨type, value, c, w', rfl, hspace, hmatch, hvalue, hdenotes⟩ :=
      first_token hlexical hw hprev' (fun hwordy => (hhead hwordy).1)
        fun n hn => (hhead (by rw [hn]; rfl)).2 n hn
    simp only [List.length_append, List.length_cons] at hfuel
    obtain ⟨fuel, rfl⟩ : ∃ k, fuel = k + 1 + pad.length := ⟨fuel - pad.length - 1, by omega⟩
    obtain ⟨tokens, htokens, hts⟩ := ih hlex' (Regex.last (Regex.last prev pad) (c :: w'))
      (fun hb => last_not_word _ hlexical hw (hb t rfl)) fuel
      (pos + pad.length + (c :: w').length) (by omega)
    refine ⟨⟨type, value, (pos + pad.length : Nat)⟩ :: tokens, ?_, .cons (hdenotes _) hts⟩
    rw [tokenizeFrom_blank hpad, List.cons_append, Lexer.tokenizeFrom, if_neg (by simp [hspace])]
    rw [List.cons_append] at hmatch
    rw [hmatch]
    simp only [hvalue, htokens]
    rfl

end Written

/-! ## The round trip -/

theorem keyword_lexical {k : PyStr} (hk : k ∈ keywordTexts) : (Terminal.keyword k).Lexical := hk

theorem symbol_lexical {c : Char} (hc : c ∈ ['(', ')', ':', '.', '=']) :
    (Terminal.symbol c).Lexical := by
  have hall : ['(', ')', ':', '.', '='].all (PyChar.scalar · ∈ Lexer.symbols) = true := by decide
  simp only [List.all_eq_true, decide_eq_true_eq] at hall
  exact hall c hc

namespace Query.Printable

variable {q : Query} {t : Terminal}

theorem lexical_label (h : q.Printable) (ht : t ∈ labelTerminals q.label) : t.Lexical := by
  cases hl : q.label with
  | none =>
    rw [hl] at ht
    cases ht
  | some l =>
    rw [hl] at ht
    simp only [labelTerminals, List.mem_cons, List.not_mem_nil, or_false] at ht
    rcases ht with rfl | rfl
    · exact symbol_lexical (by decide)
    · exact h.label l hl

theorem lexical_condition (h : q.Printable) (ht : t ∈ conditionTerminals q.condition) :
    t.Lexical := by
  cases hc : q.condition with
  | none =>
    rw [hc] at ht
    cases ht
  | some c =>
    obtain ⟨hname, hproperty, -⟩ := h.condition c hc
    rw [hc] at ht
    simp only [conditionTerminals, List.mem_cons, List.not_mem_nil, or_false] at ht
    rcases ht with rfl | rfl | rfl | rfl | rfl | rfl
    · exact keyword_lexical (by decide)
    · exact hname
    · exact symbol_lexical (by decide)
    · exact hproperty
    · exact symbol_lexical (by decide)
    · exact trivial

theorem lexical (h : q.Printable) (ht : t ∈ q.terminals) : t.Lexical := by
  simp only [terminals, List.mem_cons, List.mem_append, List.not_mem_nil, or_false] at ht
  rcases ht with rfl | rfl | rfl | ht | rfl | ht | rfl | rfl
  · exact keyword_lexical (by decide)
  · exact symbol_lexical (by decide)
  · exact h.varName
  · exact h.lexical_label ht
  · exact symbol_lexical (by decide)
  · exact h.lexical_condition ht
  · exact keyword_lexical (by decide)
  · exact h.returned

end Query.Printable

/-- The parser undoes the writing of a query. -/
theorem parse_written (W : WordChars) (q : Query) (text : PyStr) (hq : q.Printable)
    (ht : Written none q.terminals text) : parseQuery W text = some (.ok q.ast) := by
  obtain ⟨tokens, htokens, hq'⟩ := tokenizeFrom_written (W := W) ht (fun _ => hq.lexical) none
    (fun _ => rfl) text.length 0 (le_refl _)
  have hparse : QueryParser.parse (tokens ++ []) = .ok q.ast := QueryParser.parse_sentence hq'
  rw [List.append_nil] at hparse
  rw [parseQuery, Lexer.tokenize, htokens, Option.map_some]
  exact congrArg some hparse

def orders : Query := ⟨PyStr.lit "or_x", some (PyStr.lit "Order"), none, PyStr.lit "or_x"⟩

theorem parse_written_orders : parseQuery WordChars.least
    (PyStr.lit "match(or_x:Order) Return or_x ") = some (.ok orders.ast) := by
  have hname : Name (PyStr.lit "or_x") ∧ Name (PyStr.lit "Order") := by
    refine ⟨⟨?_, ?_⟩, ⟨?_, ?_⟩⟩ <;> decide
  have hq : orders.Printable := by
    refine ⟨hname.1, fun l hl => ?_, fun c hc => ?_, hname.1⟩
    · cases hl
      exact hname.2
    · cases hc
  have hnil := PyStr.Blank.nil
  have hspace : PyStr.Blank (PyStr.lit " ") := by decide
  have hwritten : Written none orders.terminals
      ([] ++ (PyStr.lit "match" ++ ([] ++ (PyStr.lit "(" ++ ([] ++ (PyStr.lit "or_x" ++
        ([] ++ (PyStr.lit ":" ++ ([] ++ (PyStr.lit "Order" ++ ([] ++ (PyStr.lit ")" ++
          (PyStr.lit " " ++ (PyStr.lit "Return" ++ (PyStr.lit " " ++ (PyStr.lit "or_x" ++
            PyStr.lit " ")))))))))))))))) := by
    refine .next hnil nofun (.keyword (by decide) (by decide)) ?_
    refine .next hnil (by simp [MustPart, Terminal.wordy]) (.symbol '(') ?_
    refine .next hnil (by simp [MustPart, Terminal.wordy]) (.name _) ?_
    refine .next hnil (by simp [MustPart, Terminal.wordy]) (.symbol ':') ?_
    refine .next hnil (by simp [MustPart, Terminal.wordy]) (.name _) ?_
    refine .next hnil (by simp [MustPart, Terminal.wordy]) (.symbol ')') ?_
    refine .next hspace (fun _ _ _ => by decide) (.keyword (by decide) (by decide)) ?_
    exact .next hspace (fun _ _ _ => by decide) (.name _) (.done hspace)
  exact parse_written WordChars.least orders _ hq hwritten

end PythonPortfolio.Nebula
