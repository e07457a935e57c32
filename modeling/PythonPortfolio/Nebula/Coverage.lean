import PythonPortfolio.Nebula.RoundTrip

/-!
# The lexer loses nothing

At a place that is not blank the last pattern `$` never matches and every other one takes
at least a character, so each pass of the loop moves on. The texts of the tokens lie at
their positions one behind the other, and with the blanks between them make up the whole
text; a blank is part of a token only inside a quoted string.
-/

namespace PythonPortfolio.Nebula

open Library

/-! ## What the tokens should cover -/

def quotes : PyStr := PyStr.lit "'\""

/-- For each character of a text whether it is in a quoted string, its quotes included, or
not blank. A quote opens a string that the next quote of its kind closes; `opened` is the
quote that is open. -/
def wanted : Option PyChar → PyStr → List Bool
  | _, [] => []
  | none, c :: s =>
    if c ∈ quotes then true :: wanted (some c) s else (!c.isSpace) :: wanted none s
  | some quote, c :: s => true :: wanted (if c = quote then none else some quote) s

theorem wanted_nil {opened : Option PyChar} : wanted opened [] = [] := by
  cases opened <;> rfl

theorem wanted_none {c : PyChar} {s : PyStr} : wanted none (c :: s) =
    if c ∈ quotes then true :: wanted (some c) s else (!c.isSpace) :: wanted none s := rfl

theorem wanted_some {quote c : PyChar} {s : PyStr} : wanted (some quote) (c :: s) =
    true :: wanted (if c = quote then none else some quote) s := rfl

def Quoted (w : PyStr) : Prop :=
  ∃ quote ∈ quotes, ∃ s, quote ∉ s ∧ w = quote :: (s ++ [quote])

/-- A character that stands for itself outside quoted strings. -/
def bare (c : PyChar) : Bool := !c.isSpace && decide (c ∉ quotes)

/-- The token is made of the text `w`: a whole quoted string, or neither blanks nor quotes. -/
structure Token.MadeOf (t : Token) (w : PyStr) : Prop where
  type : t.type ≠ .eof
  value : Lexer.tokenValue t.type w = .ok t.value
  nonempty : w ≠ []
  text : if t.type = .string then Quoted w else ∀ c ∈ w, bare c = true

/-- The place `k` lies in the text of one of the tokens. -/
def Covered (tokens : List (Token × PyStr)) (k : Nat) : Prop :=
  ∃ p ∈ tokens, p.1.position ≤ (k : Int) ∧ (k : Int) < p.1.position + (p.2.length : Int)

/-- The tokens lie in the text at increasing positions without overlap and cover what they
should. -/
structure Covers (text : PyStr) (tokens : List (Token × PyStr)) : Prop where
  madeOf : ∀ p ∈ tokens, p.1.MadeOf p.2
  located : ∀ p ∈ tokens, ∃ n : Nat, p.1.position = n ∧ p.2 <+: text.drop n
  increasing : tokens.Pairwise fun p q => p.1.position < q.1.position
  apart : tokens.Pairwise fun p q => p.1.position + (p.2.length : Int) ≤ q.1.position
  covered : ∀ k < text.length, Covered tokens k ↔ (wanted none text)[k]? = some true

/-! ## Tokens one behind the other -/

/-- From position `pos` on, the text `s` consists of blanks and the texts of the tokens. -/
inductive Tiles : Nat → PyStr → List (Token × PyStr) → Prop
  | done {pos : Nat} {s : PyStr} (hblank : PyStr.Blank s) : Tiles pos s []
  | token {pos : Nat} {pad w rest : PyStr} {t : Token} {tokens : List (Token × PyStr)}
      (hpad : PyStr.Blank pad) (hw : t.MadeOf w)
      (hpos : t.position = ((pos + pad.length : Nat) : Int))
      (hrest : Tiles (pos + pad.length + w.length) rest tokens) :
      Tiles pos (pad ++ (w ++ rest)) ((t, w) :: tokens)

namespace Tiles

variable {pos : Nat} {s : PyStr} {tokens : List (Token × PyStr)} {p : Token × PyStr}

theorem cons_blank {c : PyChar} (hc : c.isSpace = true) (h : Tiles (pos + 1) s tokens) :
    Tiles pos (c :: s) tokens := by
  have hpad : ∀ {pad : PyStr}, PyStr.Blank pad → PyStr.Blank (c :: pad) := by
    intro pad hblank d hd
    rcases List.mem_cons.mp hd with rfl | hd
    · exact hc
    · exact hblank d hd
  cases h with
  | done hblank => exact .done (hpad hblank)
  | @token _ pad w rest t tokens hblank hw hpos hrest =>
    rw [← List.cons_append]
    refine .token (hpad hblank) hw ?_ ?_
    · rw [hpos, List.length_cons, Nat.add_assoc, Nat.add_comm 1]
    · rwa [List.length_cons, Nat.add_comm pad.length 1, ← Nat.add_assoc pos]

theorem madeOf (h : Tiles pos s tokens) (hp : p ∈ tokens) : p.1.MadeOf p.2 := by
  induction h with
  | done => cases hp
  | token _ hw _ _ ih =>
    rcases List.mem_cons.mp hp with rfl | hp
    · exact hw
    · exact ih hp

theorem position_le (h : Tiles pos s tokens) (hp : p ∈ tokens) : (pos : Int) ≤ p.1.position := by
  induction h with
  | done => cases hp
  | token _ _ hpos _ ih =>
    rcases List.mem_cons.mp hp with rfl | hp
    · dsimp only
      omega
    · have := ih hp
      omega

theorem located (h : Tiles pos s tokens) (hp : p ∈ tokens) :
    ∃ n : Nat, p.1.position = ((pos + n : Nat) : Int) ∧ p.2 <+: s.drop n := by
  induction h with
  | done => cases hp
  | @token pos pad w rest t tokens _ _ hpos _ ih =>
    rcases List.mem_cons.mp hp with rfl | hp
    · refine ⟨pad.length, hpos, ?_⟩
      rw [List.drop_left]
      exact List.prefix_append w rest
    · obtain ⟨n, hn, hprefix⟩ := ih hp
      refine ⟨pad.length + (w.length + n), by omega, ?_⟩
      rwa [← List.drop_drop, List.drop_left, ← List.drop_drop, List.drop_left]

theorem apart (h : Tiles pos s tokens) :
    tokens.Pairwise fun p q => p.1.position + (p.2.length : Int) ≤ q.1.position := by
  induction h with
  | done => exact List.Pairwise.nil
  | token _ _ hpos hrest ih =>
    refine List.pairwise_cons.mpr ⟨fun q hq => ?_, ih⟩
    have := hrest.position_le hq
    dsimp only
    omega

theorem increasing (h : Tiles pos s tokens) :
    tokens.Pairwise fun p q => p.1.position < q.1.position := by
  refine h.apart.imp_of_mem fun hp _ hle => ?_
  have := List.length_pos_iff.mpr (h.madeOf hp).nonempty
  omega

end Tiles

/-! ## What is wanted -/

theorem wanted_blank {pad : PyStr} (hpad : PyStr.Blank pad) (s : PyStr) :
    wanted none (pad ++ s) = List.replicate pad.length false ++ wanted none s := by
  induction pad with
  | nil => rfl
  | cons c pad ih =>
    have hc : c.isSpace = true := hpad c List.mem_cons_self
    have hquote : c ∉ quotes := by
      intro hmem
      have hall : ∀ q ∈ quotes, q.isSpace = false := by decide
      rw [hall c hmem] at hc
      cases hc
    rw [List.cons_append, wanted_none, if_neg hquote, hc, ih hpad.tail]
    rfl

theorem wanted_bare {w : PyStr} (hw : ∀ c ∈ w, bare c = true) (s : PyStr) :
    wanted none (w ++ s) = List.replicate w.length true ++ wanted none s := by
  induction w with
  | nil => rfl
  | cons c w ih =>
    have hc := hw c List.mem_cons_self
    rw [bare, Bool.and_eq_true, decide_eq_true_eq] at hc
    rw [List.cons_append, wanted_none, if_neg hc.2, hc.1,
      ih fun d hd => hw d (List.mem_cons_of_mem _ hd)]
    rfl

/-- A quoted string is wanted up to the quote that closes it. -/
theorem wanted_open {quote : PyChar} {w : PyStr} (hw : quote ∉ w) (s : PyStr) :
    wanted (some quote) (w ++ quote :: s) =
      List.replicate (w.length + 1) true ++ wanted none s := by
  induction w with
  | nil =>
    rw [List.nil_append, wanted_some, if_pos rfl]
    rfl
  | cons c w ih =>
    obtain ⟨hc, hw⟩ := not_or.mp fun h => hw (List.mem_cons.mpr h)
    rw [List.cons_append, wanted_some, if_neg (Ne.symm hc), ih hw]
    rfl

theorem wanted_madeOf {t : Token} {w : PyStr} (hw : t.MadeOf w) (s : PyStr) :
    wanted none (w ++ s) = List.replicate w.length true ++ wanted none s := by
  have htext := hw.text
  by_cases htype : t.type = .string
  · rw [if_pos htype] at htext
    obtain ⟨quote, hquote, body, hbody, rfl⟩ := htext
    rw [List.cons_append, wanted_none, if_pos hquote, List.append_assoc, List.singleton_append,
      wanted_open hbody, List.length_cons, List.length_append]
    rfl
  · rw [if_neg htype] at htext
    exact wanted_bare htext s

/-- Place by place, what is wanted is what the tokens cover. -/
theorem Tiles.covered {pos : Nat} {s : PyStr} {tokens : List (Token × PyStr)}
    (h : Tiles pos s tokens) (k : Nat) (hk : k < s.length) :
    Covered tokens (pos + k) ↔ (wanted none s)[k]? = some true := by
  induction h generalizing k with
  | @done pos s hblank =>
    have hwanted := wanted_blank hblank []
    rw [List.append_nil] at hwanted
    rw [hwanted, wanted_nil, List.append_nil, List.getElem?_replicate_of_lt hk]
    exact iff_of_false (fun ⟨_, hp, _⟩ => nomatch hp) nofun
  | @token pos pad w rest t tokens hpad hw hpos hrest ih =>
    rw [wanted_blank hpad, wanted_madeOf hw]
    rw [List.length_append, List.length_append] at hk
    have hlater : ∀ p ∈ tokens, ((pos + pad.length + w.length : Nat) : Int) ≤ p.1.position :=
      fun p hp => hrest.position_le hp
    rcases Nat.lt_or_ge k pad.length with hblank | hblank
    · rw [List.getElem?_append_left (by simpa using hblank),
        List.getElem?_replicate_of_lt hblank]
      refine iff_of_false ?_ nofun
      rintro ⟨p, hp, hle, -⟩
      rcases List.mem_cons.mp hp with rfl | hp
      · dsimp only at hle
        omega
      · have := hlater p hp
        omega
    · rw [List.getElem?_append_right (by simpa using hblank), List.length_replicate]
      rcases Nat.lt_or_ge (k - pad.length) w.length with hin | hbehind
      · rw [List.getElem?_append_left (by simpa using hin), List.getElem?_replicate_of_lt hin]
        refine iff_of_true ⟨(t, w), List.mem_cons_self, ?_, ?_⟩ rfl <;> dsimp only <;> omega
      · rw [List.getElem?_append_right (by simpa using hbehind), List.length_replicate]
        have hplace : pos + k = pos + pad.length + w.length + (k - pad.length - w.length) := by
          omega
        rw [← ih (k - pad.length - w.length) (by omega), ← hplace]
        constructor
        · rintro ⟨p, hp, hle, hlt⟩
          rcases List.mem_cons.mp hp with rfl | hp
          · dsimp only at hlt
            omega
          · exact ⟨p, hp, hle, hlt⟩
        · rintro ⟨p, hp, hin⟩
          exact ⟨p, List.mem_cons_of_mem _ hp, hin⟩

theorem Tiles.covers {text : PyStr} {tokens : List (Token × PyStr)} (h : Tiles 0 text tokens) :
    Covers text tokens where
  madeOf _ hp := h.madeOf hp
  located p hp := by
    obtain ⟨n, hn, hprefix⟩ := h.located hp
    exact ⟨n, by rw [hn, Nat.zero_add], hprefix⟩
  increasing := h.increasing
  apart := h.apart
  covered k hk := by
    have hcovered := h.covered k hk
    rwa [Nat.zero_add] at hcovered

/-! ## What the patterns take -/

namespace Lexer

variable {W : WordChars} {prev : Option PyChar} {c : PyChar} {s val rest : PyStr}
  {type : TokenType}

theorem bare_of_class {p : PyChar → Bool} (hspace : c.isSpace = false)
    (hquotes : ∀ quote ∈ quotes, p quote = false) (hc : p c = true) : bare c = true := by
  have hquote : c ∉ quotes := fun hmem => by
    rw [hquotes c hmem] at hc
    cases hc
  rw [bare, hspace, decide_eq_true hquote]
  rfl

theorem bare_of_wordChar (hc : c.isWordChar = true) : bare c = true :=
  bare_of_class (p := PyChar.isWordChar) (PyChar.inRanges_apart (by decide) hc) (by decide) hc

theorem bare_of_folded (hc : c ∈ PyChar.folded) : bare c = true := by
  have hall : ∀ c ∈ PyChar.folded, bare c = true := by decide
  exact hall c hc

theorem bare_of_digit (hc : digit c = true) : bare c = true :=
  bare_of_class (p := digit) (decimal_not_space hc) (by decide) hc

theorem bare_of_nameChar (hc : nameChar c = true) : bare c = true := by
  rcases Bool.or_eq_true_iff.mp hc with hc | hc
  · exact bare_of_wordChar hc
  · exact bare_of_folded (of_decide_eq_true hc)

theorem bare_of_nameStart (hc : nameStart c = true) : bare c = true := by
  rcases Bool.or_eq_true_iff.mp hc with hc | hc
  · exact bare_of_wordChar (PyChar.isWordChar_of_isLetter hc)
  · exact bare_of_folded (of_decide_eq_true hc)

theorem within_keyword : Regex.Within W bare keywordPattern := by
  refine Regex.within_seq Regex.within_boundary (Regex.within_seq ?_ Regex.within_boundary)
  intro prev s m t hm c hc
  obtain ⟨⟨k, hk, hletters⟩, -⟩ := Regex.mem_ends_anyWord.mp hm
  exact bare_of_wordChar (PyChar.isWordChar_of_isLetter ((keyword_letters hk hletters).2 c hc))

/-- A digit, or the point of a float. -/
def numeral (c : PyChar) : Bool := digit c || decide (c = .scalar '.')

theorem within_number : Regex.Within W numeral numberPattern := by
  have hdigit : ∀ c, digit c = true → numeral c = true := fun c hc => by
    rw [numeral, hc, Bool.true_or]
  have hpoint : ∀ c, decide (c = PyChar.scalar '.') = true → numeral c = true := fun c hc => by
    rw [numeral, hc, Bool.or_true]
  exact Regex.within_seq Regex.within_boundary (Regex.within_seq
    (Regex.within_seq (Regex.within_char hdigit) (Regex.within_star hdigit)) (Regex.within_seq
      (Regex.within_alt (Regex.within_char hpoint) Regex.within_empty)
      (Regex.within_seq (Regex.within_star hdigit) Regex.within_boundary)))

theorem within_identifier : Regex.Within W bare identifierPattern :=
  Regex.within_seq Regex.within_boundary (Regex.within_seq
    (Regex.within_char fun _ => bare_of_nameStart)
    (Regex.within_seq (Regex.within_star fun _ => bare_of_nameChar) Regex.within_boundary))

theorem within_symbol : Regex.Within W bare symbolPattern := by
  have hall : ∀ c ∈ symbols, bare c = true := by decide
  exact Regex.within_char fun c hc => hall c (of_decide_eq_true hc)

/-- The pattern of a string takes a whole quoted string. -/
theorem quoted_of_match {m t : PyStr} (hm : (m, t) ∈ Regex.ends W stringPattern prev s) :
    Quoted m := by
  have hquoted : ∀ quote : Char, PyChar.scalar quote ∈ quotes →
      (m, t) ∈ Regex.ends W (quoted quote) prev s → Quoted m := by
    intro quote hquote hm
    obtain ⟨m₁, t₁, m', h₁, h', rfl⟩ := Regex.mem_ends_seq.mp hm
    obtain ⟨body, t₂, m₃, h₂, h₃, rfl⟩ := Regex.mem_ends_seq.mp h'
    have hone : ∀ {prev s m t}, (m, t) ∈ Regex.ends W (.char (· = PyChar.scalar quote)) prev s →
        m = [PyChar.scalar quote] := by
      intro prev s m t hm
      cases s with
      | nil => cases hm
      | cons c s =>
        obtain ⟨hc, rfl, -⟩ := Regex.mem_ends_char.mp hm
        rw [of_decide_eq_true hc]
    have hbody : PyChar.scalar quote ∉ body := fun hmem => by
      have hstar : Regex.Within W (· ≠ PyChar.scalar quote) (.star (· ≠ PyChar.scalar quote)) :=
        Regex.within_star fun _ => id
      exact of_decide_eq_true (hstar _ _ _ _ h₂ _ hmem) rfl
    exact ⟨_, hquote, body, hbody, by rw [hone h₁, hone h₃]; rfl⟩
  rw [stringPattern, Regex.ends_alt, List.mem_append] at hm
  exact hm.elim (hquoted '\'' (by decide)) (hquoted '"' (by decide))

/-- Digits without a point are converted. -/
theorem tokenValue_number (hval : ∀ c ∈ val, numeral c = true) :
    ∃ value, tokenValue .number val = .ok value := by
  by_cases hpoint : PyChar.scalar '.' ∈ val
  · exact ⟨.float val, by rw [tokenValue, if_pos hpoint]⟩
  · have hdigits : ∀ c ∈ val, c.decimal.isSome = true := by
      intro c hc
      rcases Bool.or_eq_true_iff.mp (hval c hc) with hdigit | hdot
      · exact hdigit
      · rw [of_decide_eq_true hdot] at hc
        exact absurd hc hpoint
    obtain ⟨n, hn⟩ := Option.isSome_iff_exists.mp (PyStr.int?_of_decimal hdigits)
    exact ⟨.int n, by rw [tokenValue, if_neg hpoint, hn]⟩

/-- What is taken at a place that is not blank has a value and makes up a token. -/
theorem madeOf_firstMatch (hc : c.isSpace = false)
    (h : firstMatch W prev (c :: s) = some (type, val, rest)) :
    ∃ value, tokenValue type val = .ok value ∧ ∀ pos, (⟨type, value, pos⟩ : Token).MadeOf val := by
  have hne := (firstMatch_split hc h).2
  obtain ⟨⟨type', r⟩, hmem, hr⟩ := List.exists_of_findSome?_eq_some h
  obtain ⟨m, hm, heq⟩ := Option.map_eq_some_iff.mp hr
  obtain ⟨rfl, rfl⟩ := Prod.mk.inj heq
  dsimp only at hm
  simp only [patterns, List.mem_cons, List.not_mem_nil, or_false, Prod.mk.injEq] at hmem
  rcases hmem with ⟨rfl, rfl⟩ | ⟨rfl, rfl⟩ | ⟨rfl, rfl⟩ | ⟨rfl, rfl⟩ | ⟨rfl, rfl⟩ | ⟨rfl, rfl⟩
  · exact ⟨_, rfl, fun _ => ⟨fun he => (by cases he), rfl, hne, within_keyword.of_match? hm⟩⟩
  · have hnumeral := within_number.of_match? hm
    obtain ⟨value, hvalue⟩ := tokenValue_number hnumeral
    refine ⟨value, hvalue, fun _ => ⟨fun he => (by cases he), hvalue, hne, fun d hd => ?_⟩⟩
    rcases Bool.or_eq_true_iff.mp (hnumeral d hd) with hdigit | hdot
    · exact bare_of_digit hdigit
    · rw [of_decide_eq_true hdot]
      decide
  · have hquoted := quoted_of_match (List.mem_of_mem_head? hm)
    exact ⟨_, rfl, fun _ => ⟨fun he => (by cases he), rfl, hne, hquoted⟩⟩
  · exact ⟨_, rfl, fun _ => ⟨fun he => (by cases he), rfl, hne, within_identifier.of_match? hm⟩⟩
  · exact ⟨_, rfl, fun _ => ⟨fun he => (by cases he), rfl, hne, within_symbol.of_match? hm⟩⟩
  · rw [match?_atEnd hc] at hm
    cases hm

/-- The loop complains about a character, or lays its tokens one behind the other. -/
theorem tokenizeFrom_tiles {fuel pos : Nat} {result : Except QueryError (List Token)}
    (h : tokenizeFrom W fuel prev pos s = some result) :
    (∃ k c, result = .error (.syntaxError (.illegalCharacter k c))) ∨
      ∃ tokens, result = .ok (tokens.map Prod.fst) ∧ Tiles pos s tokens := by
  induction fuel generalizing prev pos s result with
  | zero =>
    cases s with
    | nil =>
      cases h
      exact Or.inr ⟨[], rfl, .done PyStr.Blank.nil⟩
    | cons c s => cases h
  | succ fuel ih =>
    cases s with
    | nil =>
      cases h
      exact Or.inr ⟨[], rfl, .done PyStr.Blank.nil⟩
    | cons c s =>
      rw [tokenizeFrom] at h
      split at h
      · next hspace =>
        rcases ih h with herr | ⟨tokens, hresult, htiles⟩
        · exact Or.inl herr
        · exact Or.inr ⟨tokens, hresult, htiles.cons_blank hspace⟩
      · next hspace =>
        split at h
        · cases h
          exact Or.inl ⟨_, _, rfl⟩
        · next type val rest hmatch =>
          have hc : c.isSpace = false := by simpa using hspace
          obtain ⟨value, hvalue, hmade⟩ := madeOf_firstMatch hc hmatch
          rw [hvalue] at h
          obtain ⟨later, hlater, rfl⟩ := Option.map_eq_some_iff.mp h
          rcases ih hlater with ⟨k, d, rfl⟩ | ⟨tokens, rfl, htiles⟩
          · exact Or.inl ⟨k, d, rfl⟩
          · refine Or.inr ⟨(⟨type, value, pos⟩, val) :: tokens, rfl, ?_⟩
            rw [← (firstMatch_split hc hmatch).1]
            show Tiles _ ([] ++ (_ ++ _)) _
            exact .token PyStr.Blank.nil (hmade pos) rfl htiles

/-- `tokenize` ends, as each pass of its loop takes something; it complains about a
character or returns tokens that cover the text. -/
theorem tokenize_covers (W : WordChars) (text : PyStr) :
    (∀ prev c s type val rest, c.isSpace = false →
      firstMatch W prev (c :: s) = some (type, val, rest) → val ≠ [] ∧ val ++ rest = c :: s) ∧
    ((∃ k c, tokenize W text = some (.error (.syntaxError (.illegalCharacter k c)))) ∨
      ∃ tokens, tokenize W text = some (.ok (tokens.map Prod.fst)) ∧ Covers text tokens) := by
  refine ⟨fun prev c s type val rest hc h => (firstMatch_split hc h).symm, ?_⟩
  obtain ⟨result, hresult⟩ := tokenize_ends (W := W) text
  rw [hresult]
  rcases tokenizeFrom_tiles hresult with ⟨k, c, rfl⟩ | ⟨tokens, rfl, htiles⟩
  · exact Or.inl ⟨k, c, rfl⟩
  · exact Or.inr ⟨tokens, rfl, htiles.covers⟩

/-- A string with a blank in it, and a number. -/
theorem tokenize_covers_quoted :
    (∃ tokens, tokenize WordChars.least (PyStr.lit "'a b' 1") = some (.ok (tokens.map Prod.fst)) ∧
      Covers (PyStr.lit "'a b' 1") tokens) ∧
    ∃ type rest, firstMatch WordChars.least none (PyStr.lit "'a b' 1") =
      some (type, PyStr.lit "'a b'", rest) ∧ PyStr.lit "'a b'" ++ rest = PyStr.lit "'a b' 1" := by
  obtain ⟨hmoves, hends⟩ := tokenize_covers WordChars.least (PyStr.lit "'a b' 1")
  have hmatch : firstMatch WordChars.least none (PyStr.lit "'a b' 1") =
      some (.string, PyStr.lit "'a b'", PyStr.lit " 1") := by decide
  refine ⟨?_, _, _, hmatch, (hmoves none _ _ _ _ _ (by decide) hmatch).2⟩
  rcases hends with ⟨k, c, herr⟩ | hcovers
  · have hok : ∃ tokens, tokenize WordChars.least (PyStr.lit "'a b' 1") = some (.ok tokens) :=
      ⟨_, by rfl⟩
    obtain ⟨tokens, htokens⟩ := hok
    rw [htokens] at herr
    cases herr
  · exact hcovers

end Lexer

end PythonPortfolio.Nebula
