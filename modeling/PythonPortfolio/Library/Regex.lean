import PythonPortfolio.Library.PyStr

/-!
# Backtracking regular expressions

The fragment of Python's `re` that a tokenizer needs: classes of characters, greedy
repetition of a class, sequence, ordered choice, `\b` and `$`. `ends` lists the ways
to match at a place of the text in the order in which the engine tries them, and the
engine takes the first. Which characters beyond ASCII count as letters or digits is a
parameter, with the facts of the Unicode database that readers rely on.
-/

namespace PythonPortfolio.Library

/-- The four characters beyond ASCII that `re.IGNORECASE` identifies with an ASCII letter. -/
def PyChar.folded : List PyChar :=
  [.scalar '\u0130', .scalar '\u0131', .scalar '\u017F', .scalar '\u212A']

/-- `str.isalnum` beyond ASCII. -/
structure WordChars where
  alnum : PyChar → Bool
  not_space : ∀ c, c.isSpace = true → alnum c = false
  of_decimal : ∀ c, c.decimal.isSome = true → alnum c = true
  of_folded : ∀ c ∈ PyChar.folded, alnum c = true

/-- What `\b` takes for a character of a word. -/
def WordChars.word (W : WordChars) (c : PyChar) : Bool :=
  if c.code < 128 then c.isWordChar else W.alnum c

inductive Regex where
  | empty
  | char (p : PyChar → Bool)
  | star (p : PyChar → Bool)
  | seq (r q : Regex)
  | alt (r q : Regex)
  | boundary
  | atEnd

namespace Regex

/-- A repeated class takes as many characters as it can, then fewer. -/
def starEnds (p : PyChar → Bool) : PyStr → List (PyStr × PyStr)
  | [] => [([], [])]
  | c :: s =>
    (if p c then (starEnds p s).map fun m => (c :: m.1, m.2) else []) ++ [([], c :: s)]

/-- The character before a place, once `text` is consumed. -/
def last (prev : Option PyChar) (text : PyStr) : Option PyChar := text.getLast?.or prev

variable (W : WordChars)

def atBoundary (prev : Option PyChar) (s : PyStr) : Bool :=
  prev.any W.word != s.head?.any W.word

/-- What each way to match `r` at the beginning of `s` consumes and leaves; `prev` is the
character before `s`. -/
def ends : Regex → Option PyChar → PyStr → List (PyStr × PyStr)
  | empty, _, s => [([], s)]
  | char _, _, [] => []
  | char p, _, c :: s => if p c then [([c], s)] else []
  | star p, _, s => starEnds p s
  | seq r q, prev, s => (ends r prev s).flatMap fun m =>
      (ends q (last prev m.1) m.2).map fun n => (m.1 ++ n.1, n.2)
  | alt r q, prev, s => ends r prev s ++ ends q prev s
  | boundary, prev, s => if atBoundary W prev s then [([], s)] else []
  | atEnd, _, s => if s = [] ∨ s = [.scalar '\n'] then [([], s)] else []

/-- `regex.match(text, pos)`. -/
def match? (r : Regex) (prev : Option PyChar) (s : PyStr) : Option (PyStr × PyStr) :=
  (ends W r prev s).head?

def plus (p : PyChar → Bool) : Regex := seq (char p) (star p)

def opt (p : PyChar → Bool) : Regex := alt (char p) empty

/-- A letter in either case. -/
def letter (c : Char) (d : PyChar) : Bool := d = .scalar c || d = .scalar c.toLower

/-- A word of capital letters under `re.IGNORECASE`. -/
def word : List Char → Regex
  | [] => empty
  | c :: cs => seq (char (letter c)) (word cs)

/-- `(w1|w2|...)`; the last alternative matches nothing. -/
def anyWord : List (List Char) → Regex
  | [] => char fun _ => false
  | w :: ws => alt (word w) (anyWord ws)

end Regex

/-! ## Characters of words -/

namespace WordChars

variable {W : WordChars} {c : PyChar}

theorem word_ascii (h : c.code < 128) : W.word c = c.isWordChar := if_pos h

theorem word_of_isWordChar (h : c.isWordChar = true) : W.word c = true := by
  unfold word
  split
  · exact h
  · next hascii =>
    obtain ⟨r, hr, hin⟩ := PyChar.inRanges_eq_true.mp h
    have hhigh : ∀ r ∈ ((0x30, 0x39) :: PyChar.letters : List (Nat × Nat)), r.2 < 128 := by decide
    have := hhigh r hr
    omega

theorem word_of_decimal (h : c.decimal.isSome = true) : W.word c = true := by
  unfold word
  split
  · next hascii =>
    obtain ⟨z, hz, hlow, hhigh⟩ := PyChar.mem_zeros_of_decimal h
    have hzeros : ∀ z ∈ PyChar.zeros, z = 0x30 ∨ 128 ≤ z := by decide
    have := hzeros z hz
    refine PyChar.inRanges_eq_true.mpr ⟨(0x30, 0x39), List.mem_cons_self, ?_⟩
    dsimp only
    omega
  · exact W.of_decimal c h

theorem word_of_folded (h : c ∈ PyChar.folded) : W.word c = true := by
  have hhigh : ∀ c ∈ PyChar.folded, ¬ c.code < 128 := by decide
  rw [word, if_neg (hhigh c h)]
  exact W.of_folded c h

theorem word_of_isSpace (h : c.isSpace = true) : W.word c = false := by
  unfold word
  split
  · refine PyChar.inRanges_apart ?_ h
    decide
  · exact W.not_space c h

/-- The tables in which only the characters that must be are letters or digits. -/
def least : WordChars where
  alnum c := c.decimal.isSome || c ∈ PyChar.folded
  not_space c hc := by
    have hdecimal : c.decimal.isSome = false := by
      rw [← Bool.not_eq_true]
      intro hd
      obtain ⟨z, hz, hlow, hhigh⟩ := PyChar.mem_zeros_of_decimal hd
      obtain ⟨r, hr, hge, hle⟩ := PyChar.inRanges_eq_true.mp hc
      have hapart : ∀ z ∈ PyChar.zeros, ∀ r ∈ PyChar.spaces, z + 9 < r.1 ∨ r.2 < z := by decide
      have := hapart z hz r hr
      omega
    have hfolded : ∀ d ∈ PyChar.folded, d.isSpace = false := by decide
    have hc' : c ∉ PyChar.folded := fun hmem => by
      rw [hfolded c hmem] at hc
      cases hc
    simp [hdecimal, hc']
  of_decimal c hc := by simp [hc]
  of_folded c hc := by simp [hc]

end WordChars

namespace Regex

variable {W : WordChars} {p : PyChar → Bool} {r q : Regex} {prev : Option PyChar} {c : PyChar}
  {s t u m n : PyStr}

/-! ## The ways to match, one pattern at a time -/

theorem ends_empty : ends W empty prev s = [([], s)] := rfl

theorem ends_char : ends W (char p) prev (c :: s) = if p c then [([c], s)] else [] := rfl

theorem ends_star : ends W (star p) prev s = starEnds p s := rfl

theorem ends_seq : ends W (seq r q) prev s = (ends W r prev s).flatMap fun m =>
    (ends W q (last prev m.1) m.2).map fun n => (m.1 ++ n.1, n.2) := rfl

theorem ends_alt : ends W (alt r q) prev s = ends W r prev s ++ ends W q prev s := rfl

theorem ends_boundary :
    ends W boundary prev s = if atBoundary W prev s then [([], s)] else [] := rfl

theorem ends_atEnd :
    ends W atEnd prev s = if s = [] ∨ s = [.scalar '\n'] then [([], s)] else [] := rfl

/-! ## What is matched stands in the text -/

theorem append_of_mem_starEnds (h : (m, t) ∈ starEnds p s) : m ++ t = s := by
  induction s generalizing m with
  | nil =>
    rw [starEnds, List.mem_singleton] at h
    cases h
    rfl
  | cons c s ih =>
    rw [starEnds, List.mem_append, List.mem_singleton] at h
    rcases h with h | h
    · split at h
      · obtain ⟨⟨m', t'⟩, hmem, heq⟩ := List.mem_map.mp h
        cases heq
        rw [List.cons_append, ih hmem]
      · cases h
    · cases h
      rfl

theorem mem_ends_seq : (m, t) ∈ ends W (seq r q) prev s ↔
    ∃ m₁ t₁ m₂, (m₁, t₁) ∈ ends W r prev s ∧ (m₂, t) ∈ ends W q (last prev m₁) t₁ ∧
      m = m₁ ++ m₂ := by
  rw [ends_seq, List.mem_flatMap]
  constructor
  · intro hx
    obtain ⟨⟨m₁, t₁⟩, h₁, h⟩ := hx
    obtain ⟨⟨m₂, t₂⟩, h₂, heq⟩ := List.mem_map.mp h
    cases heq
    exact ⟨m₁, t₁, m₂, h₁, h₂, rfl⟩
  · intro hx
    obtain ⟨m₁, t₁, m₂, h₁, h₂, rfl⟩ := hx
    exact ⟨(m₁, t₁), h₁, List.mem_map.mpr ⟨(m₂, t), h₂, rfl⟩⟩

theorem mem_ends_boundary :
    (m, t) ∈ ends W boundary prev s ↔ atBoundary W prev s = true ∧ m = [] ∧ t = s := by
  rw [ends_boundary]
  split
  · next h => simp [h]
  · next h => simp [h]

theorem mem_ends_char {c : PyChar} :
    (m, t) ∈ ends W (char p) prev (c :: s) ↔ p c = true ∧ m = [c] ∧ t = s := by
  rw [ends_char]
  split
  · next h => simp [h]
  · next h => simp [h]

theorem append_of_mem_ends (h : (m, t) ∈ ends W r prev s) : m ++ t = s := by
  induction r generalizing prev s m t with
  | empty =>
    rw [ends_empty, List.mem_singleton] at h
    cases h
    rfl
  | char p =>
    cases s with
    | nil => cases h
    | cons c s =>
      obtain ⟨-, rfl, rfl⟩ := mem_ends_char.mp h
      rfl
  | star p => exact append_of_mem_starEnds h
  | seq r q ihr ihq =>
    obtain ⟨m₁, t₁, m₂, h₁, h₂, rfl⟩ := mem_ends_seq.mp h
    rw [List.append_assoc, ihq h₂, ihr h₁]
  | alt r q ihr ihq =>
    rw [ends_alt, List.mem_append] at h
    exact h.elim ihr ihq
  | boundary =>
    obtain ⟨-, rfl, rfl⟩ := mem_ends_boundary.mp h
    rfl
  | atEnd =>
    rw [ends_atEnd] at h
    split at h
    · rw [List.mem_singleton] at h
      cases h
      rfl
    · cases h

/-! ## The first way to match -/

theorem head?_starEnds (hm : ∀ c ∈ m, p c = true) (ht : t.head?.any p = false) :
    (starEnds p (m ++ t)).head? = some (m, t) := by
  induction m with
  | nil =>
    cases t with
    | nil => rfl
    | cons c t =>
      have hc : p c = false := by simpa using ht
      simp [starEnds, hc]
  | cons c m ih =>
    have hc : p c = true := hm c List.mem_cons_self
    have hrest := ih fun d hd => hm d (List.mem_cons_of_mem _ hd)
    rw [List.cons_append, starEnds, if_pos hc, List.head?_append, List.head?_map, hrest]
    rfl

theorem match?_star (hm : ∀ c ∈ m, p c = true) (ht : t.head?.any p = false) :
    match? W (star p) prev (m ++ t) = some (m, t) :=
  head?_starEnds hm ht

theorem match?_char (hc : p c = true) : match? W (char p) prev (c :: s) = some ([c], s) := by
  simp [match?, ends_char, hc]

theorem match?_boundary (h : atBoundary W prev s = true) :
    match? W boundary prev s = some ([], s) := by
  simp [match?, ends_boundary, h]

/-- The first way through a sequence, when the rest matches after the first way through
its beginning. -/
theorem match?_seq (hr : match? W r prev s = some (m, t))
    (hq : match? W q (last prev m) t = some (n, u)) :
    match? W (seq r q) prev s = some (m ++ n, u) := by
  unfold match? at hr hq ⊢
  obtain ⟨ms, hms⟩ := List.head?_eq_some_iff.mp hr
  obtain ⟨ns, hns⟩ := List.head?_eq_some_iff.mp hq
  rw [ends_seq, hms, List.flatMap_cons, hns]
  rfl

theorem match?_alt_left (h : match? W r prev s = some (m, t)) :
    match? W (alt r q) prev s = some (m, t) := by
  unfold match? at h ⊢
  rw [ends_alt, List.head?_append, h]
  rfl

theorem ends_seq_nil (h : ends W r prev s = []) : ends W (seq r q) prev s = [] := by
  rw [ends_seq, h, List.flatMap_nil]

theorem ends_char_nil (h : s.head?.any p = false) : ends W (char p) prev s = [] := by
  cases s with
  | nil => rfl
  | cons c s =>
    have hc : p c = false := by simpa using h
    simp [ends_char, hc]

theorem match?_alt_right (hr : ends W r prev s = []) :
    match? W (alt r q) prev s = match? W q prev s := by
  rw [match?, ends_alt, hr, List.nil_append, match?]

/-- After `\b`, a pattern that cannot begin here matches nowhere. -/
theorem ends_boundary_seq_nil (h : ends W q prev s = []) :
    ends W (seq boundary q) prev s = [] := by
  rw [List.eq_nil_iff_forall_not_mem]
  rintro ⟨m, t⟩ hmem
  obtain ⟨m₁, t₁, m₂, h₁, h₂, rfl⟩ := mem_ends_seq.mp hmem
  obtain ⟨-, rfl, rfl⟩ := mem_ends_boundary.mp h₁
  rw [show last prev [] = prev by rfl, h] at h₂
  cases h₂

theorem match?_eq_none (h : ends W r prev s = []) : match? W r prev s = none := by
  rw [match?, h]
  rfl

/-! ## Words -/

theorem atBoundary_start (hprev : prev.any W.word = false) (hs : s.head?.any W.word = true) :
    atBoundary W prev s = true := by
  rw [atBoundary, hprev, hs]
  rfl

theorem atBoundary_end (hprev : prev.any W.word = true) (hs : s.head?.any W.word = false) :
    atBoundary W prev s = true := by
  rw [atBoundary, hprev, hs]
  rfl

theorem last_last : last (last prev m) n = last prev (m ++ n) := by
  rw [last, last, last, List.getLast?_append, Option.or_assoc]

theorem any_last (hne : m ≠ []) (hm : ∀ c ∈ m, p c = true) : (last prev m).any p = true := by
  rw [last, List.getLast?_eq_some_getLast hne]
  exact hm _ (List.getLast_mem hne)

/-- Two ways to cut a text where a word ends are the same. -/
theorem word_cut_unique (hm : ∀ c ∈ m, p c = true) (ht : t.head?.any p = false)
    (hn : ∀ c ∈ n, p c = true) (hu : u.head?.any p = false) (h : m ++ t = n ++ u) :
    m = n ∧ t = u := by
  have hfirst := head?_starEnds hm ht
  rw [h, head?_starEnds hn hu] at hfirst
  cases hfirst
  exact ⟨rfl, rfl⟩

theorem mem_ends_word {w : List Char} :
    (m, t) ∈ ends W (word w) prev s ↔
      List.Forall₂ (fun c d => letter c d = true) w m ∧ m ++ t = s := by
  induction w generalizing prev s m with
  | nil =>
    rw [word, ends_empty, List.mem_singleton]
    constructor
    · intro h
      cases h
      exact ⟨.nil, rfl⟩
    · intro h
      obtain ⟨⟨⟩, rfl⟩ := h
      rfl
  | cons c w ih =>
    rw [word, mem_ends_seq]
    constructor
    · intro hx
      obtain ⟨m₁, t₁, m₂, h₁, h₂, rfl⟩ := hx
      obtain ⟨hw, rfl⟩ := ih.mp h₂
      cases s with
      | nil => cases h₁
      | cons d s =>
        obtain ⟨hd, rfl, rfl⟩ := mem_ends_char.mp h₁
        exact ⟨.cons hd hw, rfl⟩
    · intro hx
      obtain ⟨hw, rfl⟩ := hx
      cases hw with
      | @cons _ d _ m hd hw =>
        exact ⟨[d], m ++ t, m, mem_ends_char.mpr ⟨hd, rfl, rfl⟩, ih.mpr ⟨hw, rfl⟩, rfl⟩

theorem mem_ends_anyWord {ws : List (List Char)} :
    (m, t) ∈ ends W (anyWord ws) prev s ↔
      (∃ w ∈ ws, List.Forall₂ (fun c d => letter c d = true) w m) ∧ m ++ t = s := by
  induction ws with
  | nil =>
    have hnone : ends W (char fun _ => false) prev s = [] :=
      ends_char_nil (by cases s <;> rfl)
    simp [anyWord, hnone]
  | cons w ws ih =>
    rw [anyWord, ends_alt, List.mem_append, mem_ends_word, ih, ← or_and_right]
    simp only [List.mem_cons, exists_eq_or_imp]

/-! ## Patterns that take something -/

theorem append_of_match? (h : match? W r prev s = some (m, t)) : m ++ t = s :=
  append_of_mem_ends (List.mem_of_mem_head? h)

/-- Every match of `r` takes at least one character. -/
def Consumes (W : WordChars) (r : Regex) : Prop :=
  ∀ prev s m t, (m, t) ∈ ends W r prev s → m ≠ []

theorem consumes_char (p : PyChar → Bool) : Consumes W (char p) := by
  intro prev s m t h
  cases s with
  | nil => cases h
  | cons c s =>
    obtain ⟨-, rfl, -⟩ := mem_ends_char.mp h
    exact List.cons_ne_nil c []

theorem consumes_seq (h : Consumes W r ∨ Consumes W q) : Consumes W (seq r q) := by
  intro prev s m t hm
  obtain ⟨m₁, t₁, m₂, h₁, h₂, rfl⟩ := mem_ends_seq.mp hm
  rw [Ne, List.append_eq_nil_iff, not_and_or]
  exact h.imp (fun hr => hr _ _ _ _ h₁) fun hq => hq _ _ _ _ h₂

theorem consumes_alt (hr : Consumes W r) (hq : Consumes W q) : Consumes W (alt r q) := by
  intro prev s m t h
  rw [ends_alt, List.mem_append] at h
  exact h.elim (hr _ _ _ _) (hq _ _ _ _)

theorem consumes_anyWord {ws : List (List Char)} (h : [] ∉ ws) : Consumes W (anyWord ws) := by
  intro prev s m t hm he
  obtain ⟨⟨w, hw, hletters⟩, -⟩ := mem_ends_anyWord.mp hm
  subst he
  cases hletters
  exact h hw

theorem Consumes.ne_nil (hr : Consumes W r) (h : match? W r prev s = some (m, t)) : m ≠ [] :=
  hr _ _ _ _ (List.mem_of_mem_head? h)

/-! ## What a pattern takes -/

/-- Every match of `r` takes characters of the class `p` only. -/
def Within (W : WordChars) (p : PyChar → Bool) (r : Regex) : Prop :=
  ∀ prev s m t, (m, t) ∈ ends W r prev s → ∀ c ∈ m, p c = true

variable {p' : PyChar → Bool}

theorem within_char (h : ∀ c, p' c = true → p c = true) : Within W p (char p') := by
  intro prev s m t hm c hc
  cases s with
  | nil => cases hm
  | cons d s =>
    obtain ⟨hd, rfl, -⟩ := mem_ends_char.mp hm
    rw [List.mem_singleton.mp hc]
    exact h d hd

theorem within_star (h : ∀ c, p' c = true → p c = true) : Within W p (star p') := by
  intro prev s m t hm
  rw [ends_star] at hm
  induction s generalizing m with
  | nil =>
    rw [starEnds, List.mem_singleton] at hm
    cases hm
    nofun
  | cons d s ih =>
    rw [starEnds, List.mem_append, List.mem_singleton] at hm
    rcases hm with hm | hm
    · obtain ⟨hd, hm⟩ : p' d = true ∧ (m, t) ∈ (starEnds p' s).map fun m => (d :: m.1, m.2) := by
        split at hm
        · next hd => exact ⟨hd, hm⟩
        · cases hm
      obtain ⟨⟨m', t'⟩, hmem, heq⟩ := List.mem_map.mp hm
      cases heq
      intro c hc
      rcases List.mem_cons.mp hc with rfl | hc
      · exact h c hd
      · exact ih m' hmem c hc
    · cases hm
      nofun

theorem within_seq (hr : Within W p r) (hq : Within W p q) : Within W p (seq r q) := by
  intro prev s m t hm c hc
  obtain ⟨m₁, t₁, m₂, h₁, h₂, rfl⟩ := mem_ends_seq.mp hm
  exact (List.mem_append.mp hc).elim (hr _ _ _ _ h₁ c) (hq _ _ _ _ h₂ c)

theorem within_alt (hr : Within W p r) (hq : Within W p q) : Within W p (alt r q) := by
  intro prev s m t hm
  rw [ends_alt, List.mem_append] at hm
  exact hm.elim (hr _ _ _ _) (hq _ _ _ _)

theorem within_empty : Within W p empty := by
  intro prev s m t hm
  rw [ends_empty, List.mem_singleton] at hm
  cases hm
  nofun

theorem within_boundary : Within W p boundary := by
  intro prev s m t hm
  obtain ⟨-, rfl, -⟩ := mem_ends_boundary.mp hm
  nofun

theorem Within.of_match? (hr : Within W p r) (h : match? W r prev s = some (m, t)) :
    ∀ c ∈ m, p c = true :=
  hr _ _ _ _ (List.mem_of_mem_head? h)

end Regex

end PythonPortfolio.Library
