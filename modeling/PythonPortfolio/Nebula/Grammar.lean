import PythonPortfolio.Nebula.Parser

/-!
# What the GQL parser accepts

On the tokens of a text the parser accepts the sentences of the grammar, with their
trees, but also every sentence that is followed by further tokens: nothing asks for
the `EOF` that `_current` would report. Every other list of tokens is a `SyntaxError`.
-/

namespace PythonPortfolio.Nebula

open Library

/-! ## The tokens of a text -/

/-- What the lexer puts into a token. -/
def Token.Lexed (t : Token) : Prop :=
  match t.type with
  | .keyword | .identifier | .string => ∃ s, t.value = .str s
  | .symbol => ∃ c ∈ Lexer.symbols, t.value = .str [c]
  | .number => (∃ n, t.value = .int n) ∨ ∃ text, t.value = .float text
  | .eof => False

namespace Lexer

variable {W : WordChars}

/-- A blank is skipped before the patterns are tried, so that the last one never matches. -/
theorem match?_atEnd {prev : Option PyChar} {c : PyChar} {s : PyStr} (hc : c.isSpace = false) :
    Regex.match? W .atEnd prev (c :: s) = none := by
  have hend : ¬ (c :: s = [] ∨ c :: s = [.scalar '\n']) := by
    intro h
    rcases h with h | h
    · cases h
    · cases h
      cases hc
  rw [Regex.match?, Regex.ends_atEnd, if_neg hend]
  rfl

theorem tokenValue_lexed {prev : Option PyChar} {c : PyChar} {s : PyStr} {type : TokenType}
    {val rest : PyStr} {value : TokenValue} {pos : Int} (hc : c.isSpace = false)
    (hmatch : firstMatch W prev (c :: s) = some (type, val, rest))
    (hvalue : tokenValue type val = .ok value) : (⟨type, value, pos⟩ : Token).Lexed := by
  obtain ⟨⟨type', r⟩, hmem, hr⟩ := List.exists_of_findSome?_eq_some hmatch
  obtain ⟨m, hm, heq⟩ := Option.map_eq_some_iff.mp hr
  obtain ⟨htype, rfl⟩ := Prod.mk.inj heq
  obtain rfl : type' = type := htype
  dsimp only at hm
  cases type' with
  | keyword | identifier | string =>
    cases hvalue
    exact ⟨_, rfl⟩
  | number =>
    simp only [tokenValue] at hvalue
    split at hvalue
    · cases hvalue
      exact Or.inr ⟨_, rfl⟩
    · split at hvalue
      · cases hvalue
        exact Or.inl ⟨_, rfl⟩
      · cases hvalue
  | symbol =>
    cases hvalue
    obtain rfl : r = symbolPattern := by simpa [patterns] using hmem
    simp only [symbolPattern, Regex.match?, Regex.ends_char] at hm
    split at hm
    · next hsym =>
      cases hm
      exact ⟨c, of_decide_eq_true hsym, rfl⟩
    · cases hm
  | eof =>
    obtain rfl : r = .atEnd := by simpa [patterns] using hmem
    rw [match?_atEnd hc] at hm
    cases hm

theorem tokenizeFrom_lexed {fuel : Nat} {prev : Option PyChar} {pos : Nat} {s : PyStr}
    {tokens : List Token} (h : tokenizeFrom W fuel prev pos s = some (.ok tokens)) :
    ∀ t ∈ tokens, t.Lexed := by
  induction fuel generalizing prev pos s tokens with
  | zero =>
    cases s with
    | nil =>
      cases h
      intro t ht
      cases ht
    | cons c s => cases h
  | succ fuel ih =>
    cases s with
    | nil =>
      cases h
      intro t ht
      cases ht
    | cons c s =>
      rw [tokenizeFrom] at h
      split at h
      · exact ih h
      · next hspace =>
        split at h
        · cases h
        · next type val rest hmatch =>
          split at h
          · cases h
          · next value hvalue =>
            obtain ⟨r, hr, hok⟩ := Option.map_eq_some_iff.mp h
            cases r with
            | error e => cases hok
            | ok later =>
              cases hok
              intro t ht
              rcases List.mem_cons.mp ht with rfl | ht
              · exact tokenValue_lexed (by simpa using hspace) hmatch hvalue
              · exact ih hr t ht

theorem tokenize_lexed {text : PyStr} {tokens : List Token}
    (h : tokenize W text = some (.ok tokens)) : ∀ t ∈ tokens, t.Lexed :=
  tokenizeFrom_lexed h

/-! ### The lexer ends -/

theorem consumes_patterns {p : TokenType × Regex} (hp : p ∈ patterns) :
    p.2 = .atEnd ∨ Regex.Consumes W p.2 := by
  simp only [patterns, List.mem_cons, List.not_mem_nil, or_false] at hp
  rcases hp with rfl | rfl | rfl | rfl | rfl | rfl
  · exact Or.inr (Regex.consumes_seq (Or.inr (Regex.consumes_seq (Or.inl
      (Regex.consumes_anyWord (by decide))))))
  · exact Or.inr (Regex.consumes_seq (Or.inr (Regex.consumes_seq (Or.inl
      (Regex.consumes_seq (Or.inl (Regex.consumes_char _)))))))
  · exact Or.inr (Regex.consumes_alt (Regex.consumes_seq (Or.inl (Regex.consumes_char _)))
      (Regex.consumes_seq (Or.inl (Regex.consumes_char _))))
  · exact Or.inr (Regex.consumes_seq (Or.inr (Regex.consumes_seq (Or.inl
      (Regex.consumes_char _)))))
  · exact Or.inr (Regex.consumes_char _)
  · exact Or.inl rfl

/-- What is taken for a token and what is left make up the text, and something is taken. -/
theorem firstMatch_split {prev : Option PyChar} {c : PyChar} {s : PyStr} {type : TokenType}
    {val rest : PyStr} (hc : c.isSpace = false)
    (h : firstMatch W prev (c :: s) = some (type, val, rest)) :
    val ++ rest = c :: s ∧ val ≠ [] := by
  obtain ⟨p, hp, hr⟩ := List.exists_of_findSome?_eq_some h
  obtain ⟨m, hm, heq⟩ := Option.map_eq_some_iff.mp hr
  obtain ⟨-, rfl⟩ := Prod.mk.inj heq
  refine ⟨Regex.append_of_match? hm, ?_⟩
  rcases consumes_patterns (W := W) hp with hend | hconsumes
  · rw [hend, match?_atEnd hc] at hm
    cases hm
  · exact hconsumes.ne_nil hm

theorem tokenizeFrom_ends {fuel : Nat} {prev : Option PyChar} {pos : Nat} {s : PyStr}
    (h : s.length ≤ fuel) : ∃ result, tokenizeFrom W fuel prev pos s = some result := by
  induction fuel generalizing prev pos s with
  | zero =>
    obtain rfl := List.eq_nil_of_length_eq_zero (Nat.le_zero.mp h)
    exact ⟨_, rfl⟩
  | succ fuel ih =>
    cases s with
    | nil => exact ⟨_, rfl⟩
    | cons c s =>
      rw [tokenizeFrom]
      split
      · exact ih (Nat.le_of_succ_le_succ h)
      · next hspace =>
        split
        · exact ⟨_, rfl⟩
        · next type val rest hmatch =>
          split
          · exact ⟨_, rfl⟩
          · obtain ⟨hsplit, hne⟩ := firstMatch_split (by simpa using hspace) hmatch
            have hlength := congrArg List.length hsplit
            have hpos := List.length_pos_iff.mpr hne
            rw [List.length_append, List.length_cons] at hlength
            rw [List.length_cons] at h
            obtain ⟨result, hresult⟩ : ∃ result, tokenizeFrom W fuel (Regex.last prev val)
                (pos + val.length) rest = some result := ih (by omega)
            exact ⟨_, congrArg _ hresult⟩

theorem tokenize_ends (text : PyStr) : ∃ result, tokenize W text = some result :=
  tokenizeFrom_ends (le_refl _)

end Lexer

/-- Every text gets an answer from the parser. -/
theorem parseQuery_ends (W : WordChars) (text : PyStr) :
    ∃ result, parseQuery W text = some result := by
  obtain ⟨result, hresult⟩ := Lexer.tokenize_ends (W := W) text
  exact ⟨_, congrArg _ hresult⟩

/-! ## What the helpers do on the tokens of a text -/

namespace QueryParser

variable {tokens rest : List Token} {t : Token} {type : TokenType} {val : Option PyStr}
  {D : Token → Prop}

/-- Asking a token of a text for `type` and `val` finds out whether `D` holds of it. -/
structure Asks (type : TokenType) (val : Option PyStr) (D : Token → Prop) : Prop where
  ne_eof : type ≠ .eof
  yes : ∀ t rest, D t → peek (t :: rest) type val = .ok true
  no : ∀ t rest, t.Lexed → ¬ D t → peek (t :: rest) type val = .ok false

theorem asks_keyword {k : PyStr} (hne : k ≠ []) (hupper : PyStr.upper k = k) :
    Asks .keyword (some k) fun t => t.Denotes (.keyword k) where
  ne_eof := by decide
  yes := by
    intro t rest hD
    obtain ⟨htype, s, hs, hk⟩ := hD
    cases k with
    | nil => exact absurd rfl hne
    | cons c k => simp [peek, current, htype, hs, hk, hupper]
  no := by
    intro t rest hlexed hD
    cases k with
    | nil => exact absurd rfl hne
    | cons c k =>
      by_cases htype : t.type = .keyword
      · obtain ⟨s, hs⟩ : ∃ s, t.value = .str s := by simpa [Token.Lexed, htype] using hlexed
        have hk : PyStr.upper s ≠ c :: k := fun hk => hD ⟨htype, s, hs, hk⟩
        simp [peek, current, htype, hs, hk, hupper]
      · simp [peek, current, htype]

/-- The upper case of a symbol is the symbol. -/
theorem upper_symbol {c : PyChar} (h : c ∈ Lexer.symbols) : PyStr.upper [c] = [c] := by
  have hall : ∀ c ∈ Lexer.symbols, PyStr.upper [c] = [c] := by decide
  exact hall c h

theorem asks_symbol {c : Char} (hc : PyChar.scalar c ∈ Lexer.symbols) :
    Asks .symbol (some [.scalar c]) fun t => t.Denotes (.symbol c) where
  ne_eof := by decide
  yes := by
    intro t rest hD
    obtain ⟨htype, hs⟩ := hD
    simp [peek, current, htype, hs]
  no := by
    intro t rest hlexed hD
    by_cases htype : t.type = .symbol
    · obtain ⟨d, hd, hs⟩ : ∃ d ∈ Lexer.symbols, t.value = .str [d] := by
        simpa [Token.Lexed, htype] using hlexed
      have hne : d ≠ .scalar c := fun he => hD ⟨htype, he ▸ hs⟩
      simp [peek, current, htype, hs, upper_symbol hd, upper_symbol hc, hne]
    · simp [peek, current, htype]

theorem asks_name : Asks .identifier none fun t => ∃ w, t.Denotes (.name w) where
  ne_eof := by decide
  yes := by
    intro t rest hD
    obtain ⟨w, htype, hs⟩ := hD
    simp [peek, current, htype]
  no := by
    intro t rest hlexed hD
    by_cases htype : t.type = .identifier
    · obtain ⟨s, hs⟩ : ∃ s, t.value = .str s := by simpa [Token.Lexed, htype] using hlexed
      exact absurd ⟨s, htype, hs⟩ hD
    · simp [peek, current, htype]

theorem peek_cases (h : ∀ t ∈ tokens, t.Lexed) (ha : Asks type val D) :
    (∃ t rest, tokens = t :: rest ∧ D t ∧ peek tokens type val = .ok true) ∨
      peek tokens type val = .ok false := by
  cases tokens with
  | nil =>
    have hne : TokenType.eof ≠ type := fun he => ha.ne_eof he.symm
    exact Or.inr (by simp [peek, current, hne])
  | cons t rest =>
    by_cases hD : D t
    · exact Or.inl ⟨t, rest, rfl, hD, ha.yes t rest hD⟩
    · exact Or.inr (ha.no t rest (h t List.mem_cons_self) hD)

theorem matchToken_true (h : peek tokens type val = .ok true) :
    matchToken tokens type val = .ok (true, tokens.tail) := by
  rw [matchToken, h]
  rfl

theorem matchToken_false (h : peek tokens type val = .ok false) :
    matchToken tokens type val = .ok (false, tokens) := by
  rw [matchToken, h]
  rfl

theorem expect_ok (ha : Asks type val D) (hD : D t) :
    expect (t :: rest) type val = .ok (t, rest) := by
  rw [expect, matchToken_true (ha.yes t rest hD)]
  rfl

def Rejects {α : Type} (r : Except QueryError α) : Prop :=
  ∃ complaint, r = .error (.syntaxError complaint)

section Bind

variable {α : Type} {r : Except QueryError α}

theorem peek_bind {f : Bool → Except QueryError α} (h : ∀ t ∈ tokens, t.Lexed)
    (ha : Asks type val D) (hr : (peek tokens type val >>= f) = r) :
    (∃ t rest, tokens = t :: rest ∧ D t ∧ f true = r) ∨ f false = r := by
  rcases peek_cases h ha with ⟨t, rest, rfl, hD, hpeek⟩ | hpeek
  · rw [hpeek] at hr
    exact Or.inl ⟨t, rest, rfl, hD, hr⟩
  · rw [hpeek] at hr
    exact Or.inr hr

theorem matchToken_bind {f : Bool × List Token → Except QueryError α} (h : ∀ t ∈ tokens, t.Lexed)
    (ha : Asks type val D) (hr : (matchToken tokens type val >>= f) = r) :
    (∃ t rest, tokens = t :: rest ∧ D t ∧ f (true, rest) = r) ∨ f (false, tokens) = r := by
  rcases peek_cases h ha with ⟨t, rest, rfl, hD, hpeek⟩ | hpeek
  · rw [matchToken_true hpeek] at hr
    exact Or.inl ⟨t, rest, rfl, hD, hr⟩
  · rw [matchToken_false hpeek] at hr
    exact Or.inr hr

/-- A rule goes on behind the expected token or the query is rejected. -/
theorem expect_bind {f : Token × List Token → Except QueryError α} (h : ∀ t ∈ tokens, t.Lexed)
    (ha : Asks type val D) (hr : (expect tokens type val >>= f) = r) :
    (∃ t rest, tokens = t :: rest ∧ D t ∧ f (t, rest) = r) ∨ Rejects r := by
  rcases peek_cases h ha with ⟨t, rest, rfl, hD, _⟩ | hpeek
  · rw [expect_ok ha hD] at hr
    exact Or.inl ⟨t, rest, rfl, hD, hr⟩
  · refine Or.inr ⟨.expected type val (current tokens), ?_⟩
    rw [expect, matchToken_false hpeek] at hr
    exact hr.symm

end Bind

/-! ## The rules -/

theorem lexed_tail (used : List Token) (h : ∀ t ∈ used ++ rest, t.Lexed) : ∀ t ∈ rest, t.Lexed :=
  fun t ht => h t (List.mem_append_right _ ht)

theorem asks_open : Asks .symbol (some (PyStr.lit "(")) fun t => t.Denotes (.symbol '(') :=
  asks_symbol (by decide)

theorem asks_close : Asks .symbol (some (PyStr.lit ")")) fun t => t.Denotes (.symbol ')') :=
  asks_symbol (by decide)

theorem asks_colon : Asks .symbol (some (PyStr.lit ":")) fun t => t.Denotes (.symbol ':') :=
  asks_symbol (by decide)

theorem asks_dot : Asks .symbol (some (PyStr.lit ".")) fun t => t.Denotes (.symbol '.') :=
  asks_symbol (by decide)

theorem asks_equals : Asks .symbol (some (PyStr.lit "=")) fun t => t.Denotes (.symbol '=') :=
  asks_symbol (by decide)

theorem asks_match :
    Asks .keyword (some (PyStr.lit "MATCH")) fun t => t.Denotes (.keyword (PyStr.lit "MATCH")) :=
  asks_keyword (by decide) (by decide)

theorem asks_where :
    Asks .keyword (some (PyStr.lit "WHERE")) fun t => t.Denotes (.keyword (PyStr.lit "WHERE")) :=
  asks_keyword (by decide) (by decide)

theorem asks_return :
    Asks .keyword (some (PyStr.lit "RETURN")) fun t => t.Denotes (.keyword (PyStr.lit "RETURN")) :=
  asks_keyword (by decide) (by decide)

theorem parsePattern_cases (h : ∀ t ∈ tokens, t.Lexed) :
    (∃ w label used rest, tokens = used ++ rest ∧
      List.Forall₂ Token.Denotes used
        (.symbol '(' :: .name w :: (Query.labelTerminals label ++ [.symbol ')'])) ∧
      parsePattern tokens = .ok (⟨.str w, (label.map TokenValue.str).toList, .empty⟩, rest)) ∨
    Rejects (parsePattern tokens) := by
  generalize hr : parsePattern tokens = r
  rw [parsePattern] at hr
  rcases expect_bind h asks_open hr with ⟨t₁, ts₁, rfl, hopen, hr⟩ | hrej
  swap
  · exact Or.inr hrej
  replace h := lexed_tail [t₁] h
  rcases expect_bind h asks_name hr with ⟨t₂, ts₂, rfl, ⟨w, hname⟩, hr⟩ | hrej
  swap
  · exact Or.inr hrej
  replace h := lexed_tail [t₂] h
  rcases matchToken_bind h asks_colon hr with ⟨t₃, ts₃, rfl, hcolon, hr⟩ | hr
  · simp only [if_true, pure_bind] at hr
    replace h := lexed_tail [t₃] h
    rcases expect_bind h asks_name hr with ⟨t₄, ts₄, rfl, ⟨label, hlabel⟩, hr⟩ | hrej
    swap
    · exact Or.inr hrej
    replace h := lexed_tail [t₄] h
    rcases expect_bind h asks_close hr with ⟨t₅, ts₅, rfl, hclose, rfl⟩ | hrej
    swap
    · exact Or.inr hrej
    refine Or.inl ⟨w, some label, [t₁, t₂, t₃, t₄, t₅], ts₅, rfl,
      .cons hopen (.cons hname (.cons hcolon (.cons hlabel (.cons hclose .nil)))), ?_⟩
    rw [hname.2, hlabel.2]
    rfl
  · rcases expect_bind h asks_close hr with ⟨t₅, ts₅, rfl, hclose, rfl⟩ | hrej
    swap
    · exact Or.inr hrej
    refine Or.inl ⟨w, none, [t₁, t₂, t₅], ts₅, rfl,
      .cons hopen (.cons hname (.cons hclose .nil)), ?_⟩
    rw [hname.2]
    rfl

theorem parseWhere_cases (h : ∀ t ∈ tokens, t.Lexed) :
    (∃ (c : Condition) (used rest : List Token), tokens = used ++ rest ∧
      List.Forall₂ Token.Denotes used
        [.name c.varName, .symbol '.', .name c.property, .symbol '=', .literal c.literal] ∧
      parseWhere tokens =
        .ok (⟨.str c.varName, .str c.property, .str (PyStr.lit "="), c.literal⟩, rest)) ∨
    Rejects (parseWhere tokens) := by
  generalize hr : parseWhere tokens = r
  rw [parseWhere] at hr
  rcases expect_bind h asks_name hr with ⟨t₁, ts₁, rfl, ⟨w, hname⟩, hr⟩ | hrej
  swap
  · exact Or.inr hrej
  replace h := lexed_tail [t₁] h
  rcases expect_bind h asks_dot hr with ⟨t₂, ts₂, rfl, hdot, hr⟩ | hrej
  swap
  · exact Or.inr hrej
  replace h := lexed_tail [t₂] h
  rcases expect_bind h asks_name hr with ⟨t₃, ts₃, rfl, ⟨property, hproperty⟩, hr⟩ | hrej
  swap
  · exact Or.inr hrej
  replace h := lexed_tail [t₃] h
  rcases expect_bind h asks_equals hr with ⟨t₄, ts₄, rfl, hequals, hr⟩ | hrej
  swap
  · exact Or.inr hrej
  dsimp only at hr
  split at hr
  · exact Or.inr ⟨.expectedLiteral, hr.symm⟩
  · next htype =>
    cases ts₄ with
    | nil => exact absurd ⟨nofun, nofun⟩ htype
    | cons t₅ ts₅ =>
      have hliteral : t₅.Denotes (.literal t₅.value) := by
        refine ⟨?_, rfl⟩
        by_contra hno
        exact htype (not_or.mp hno)
      refine Or.inl ⟨⟨w, property, t₅.value⟩, [t₁, t₂, t₃, t₄, t₅], ts₅, rfl,
        .cons hname (.cons hdot (.cons hproperty (.cons hequals (.cons hliteral .nil)))), ?_⟩
      rw [← hr, hname.2, hproperty.2, hequals.2]
      rfl

/-- The last part of `parse`, where the other clauses are known. -/
theorem parseReturn_cases {pattern : MatchClause} {condition : Option WhereClause}
    {r : Except QueryError QueryAST} (h : ∀ t ∈ tokens, t.Lexed)
    (hr : (do
      let (found, tokens) ← matchToken tokens .keyword (some (PyStr.lit "RETURN"))
      if found then do
        let (ret, _) ← parseReturn tokens
        return ⟨[pattern], condition, [ret]⟩
      else throw (.syntaxError .mustHaveReturn)) = r) :
    (∃ w used rest, tokens = used ++ rest ∧
      List.Forall₂ Token.Denotes used [.keyword (PyStr.lit "RETURN"), .name w] ∧
      .ok ⟨[pattern], condition, [⟨.str w⟩]⟩ = r) ∨ Rejects r := by
  rcases matchToken_bind h asks_return hr with ⟨t₁, ts₁, rfl, hreturn, hr⟩ | hr
  swap
  · exact Or.inr ⟨.mustHaveReturn, hr.symm⟩
  replace h := lexed_tail [t₁] h
  simp only [if_true, parseReturn, bind_assoc] at hr
  rcases expect_bind h asks_name hr with ⟨t₂, ts₂, rfl, ⟨w, hname⟩, hr⟩ | hrej
  swap
  · exact Or.inr hrej
  refine Or.inl ⟨w, [t₁, t₂], ts₂, rfl, .cons hreturn (.cons hname .nil), ?_⟩
  rw [← hr, hname.2]
  rfl

/-- A parse finds a sentence at the beginning of the tokens, or it raises a `SyntaxError`. -/
theorem parse_cases (h : ∀ t ∈ tokens, t.Lexed) :
    (∃ (q : Query) (used rest : List Token), tokens = used ++ rest ∧ q.Derives used ∧
      parse tokens = .ok q.ast) ∨ Rejects (parse tokens) := by
  generalize hr : parse tokens = r
  rw [parse] at hr
  rcases matchToken_bind h asks_match hr with ⟨t₁, ts₁, rfl, hmatch, hr⟩ | hr
  swap
  · exact Or.inr ⟨.mustStartWithMatch, hr.symm⟩
  replace h := lexed_tail [t₁] h
  simp only [if_true] at hr
  rcases parsePattern_cases h with ⟨w, label, pattern, ts₂, rfl, hpattern, heq⟩ | ⟨e, he⟩
  swap
  · rw [he] at hr
    exact Or.inr ⟨e, hr.symm⟩
  rw [heq] at hr
  replace h := lexed_tail _ h
  rcases peek_bind h asks_where hr with ⟨t₃, ts₃, rfl, hwhere, hr⟩ | hr
  · simp only [if_true, List.tail_cons] at hr
    replace h := lexed_tail [t₃] h
    rcases parseWhere_cases h with ⟨c, condition, ts₄, rfl, hcondition, heq⟩ | ⟨e, he⟩
    swap
    · rw [he] at hr
      exact Or.inr ⟨e, hr.symm⟩
    rw [heq] at hr
    replace h := lexed_tail _ h
    rcases parseReturn_cases h hr with ⟨x, used, rest, rfl, hused, hr⟩ | hrej
    swap
    · exact Or.inr hrej
    refine Or.inl ⟨⟨w, label, some c, x⟩, t₁ :: (pattern ++ t₃ :: (condition ++ used)), rest,
      by simp, ?_, hr.symm⟩
    have := List.rel_append hpattern (.cons hwhere (List.rel_append hcondition hused))
    exact .cons hmatch (by simpa [Query.conditionTerminals] using this)
  · rcases parseReturn_cases h hr with ⟨x, used, rest, rfl, hused, hr⟩ | hrej
    swap
    · exact Or.inr hrej
    refine Or.inl ⟨⟨w, label, none, x⟩, t₁ :: (pattern ++ used), rest, by simp, ?_, hr.symm⟩
    exact .cons hmatch (by simpa [Query.conditionTerminals] using List.rel_append hpattern hused)

/-! ## Sentences are accepted -/

/-- Behind the opening part of a pattern there is either `:` or `)`. -/
theorem peek_colon_close (hD : t.Denotes (.symbol ')')) :
    peek (t :: rest) .symbol (some (PyStr.lit ":")) = .ok false := by
  simp only [peek, current, List.headD_cons, hD.1, hD.2]
  decide

theorem peek_where_return (hD : t.Denotes (.keyword (PyStr.lit "RETURN"))) :
    peek (t :: rest) .keyword (some (PyStr.lit "WHERE")) = .ok false := by
  obtain ⟨htype, s, hs, hupper⟩ := hD
  simp only [peek, current, List.headD_cons, htype, hs, hupper]
  decide

theorem parsePattern_sentence {w : PyStr} {label : Option PyStr} {used : List Token}
    (h : List.Forall₂ Token.Denotes used
      (.symbol '(' :: .name w :: (Query.labelTerminals label ++ [.symbol ')']))) :
    parsePattern (used ++ rest) =
      .ok (⟨.str w, (label.map TokenValue.str).toList, .empty⟩, rest) := by
  obtain _ | ⟨hopen, h⟩ := h
  obtain _ | ⟨hname, h⟩ := h
  simp only [List.cons_append, parsePattern, expect_ok asks_open hopen,
    expect_ok asks_name ⟨w, hname⟩, bind, Except.bind]
  cases label with
  | none =>
    obtain _ | ⟨hclose, _ | _⟩ := h
    simp only [List.cons_append, List.nil_append, matchToken_false (peek_colon_close hclose),
      Bool.false_eq_true, if_false, pure, Except.pure, expect_ok asks_close hclose, hname.2]
    rfl
  | some label =>
    obtain _ | ⟨hcolon, h⟩ := h
    obtain _ | ⟨hlabel, h⟩ := h
    obtain _ | ⟨hclose, _ | _⟩ := h
    simp only [List.cons_append, List.nil_append, matchToken_true (asks_colon.yes _ _ hcolon),
      List.tail_cons, if_true, expect_ok asks_name ⟨label, hlabel⟩, pure, Except.pure,
      expect_ok asks_close hclose, hname.2, hlabel.2]
    rfl

theorem literal_type {v : TokenValue} (hD : t.Denotes (.literal v)) :
    ¬ ((current (t :: rest)).type ≠ .string ∧ (current (t :: rest)).type ≠ .number) :=
  fun h => hD.1.elim h.1 h.2

theorem parseWhere_sentence {c : Condition} {used : List Token}
    (h : List.Forall₂ Token.Denotes used
      [.name c.varName, .symbol '.', .name c.property, .symbol '=', .literal c.literal]) :
    parseWhere (used ++ rest) =
      .ok (⟨.str c.varName, .str c.property, .str (PyStr.lit "="), c.literal⟩, rest) := by
  obtain _ | ⟨hname, h⟩ := h
  obtain _ | ⟨hdot, h⟩ := h
  obtain _ | ⟨hproperty, h⟩ := h
  obtain _ | ⟨hequals, h⟩ := h
  obtain _ | ⟨hliteral, _ | _⟩ := h
  simp only [List.cons_append, List.nil_append, parseWhere, expect_ok asks_name ⟨_, hname⟩,
    expect_ok asks_dot hdot, expect_ok asks_name ⟨_, hproperty⟩, expect_ok asks_equals hequals,
    bind, Except.bind]
  rw [if_neg (literal_type hliteral), hname.2, hproperty.2, hequals.2]
  simp only [current, List.headD_cons, hliteral.2]
  rfl

/-- What denotes a text of two parts falls into two parts. -/
theorem denotes_append {used : List Token} {ts us : List Terminal}
    (h : List.Forall₂ Token.Denotes used (ts ++ us)) :
    ∃ before after, used = before ++ after ∧ List.Forall₂ Token.Denotes before ts ∧
      List.Forall₂ Token.Denotes after us :=
  ⟨_, _, (List.take_append_drop ts.length used).symm, List.forall₂_take_append _ _ _ h,
    List.forall₂_drop_append _ _ _ h⟩

theorem parseReturn_sentence {w : PyStr} {used : List Token}
    (h : List.Forall₂ Token.Denotes used [.name w]) :
    parseReturn (used ++ rest) = .ok (⟨.str w⟩, rest) := by
  obtain _ | ⟨hname, _ | _⟩ := h
  simp only [List.cons_append, List.nil_append, parseReturn, expect_ok asks_name ⟨w, hname⟩, bind,
    Except.bind, hname.2]
  rfl

/-- A sentence is accepted with its tree, whatever follows it. -/
theorem parse_sentence {q : Query} {used : List Token} (h : q.Derives used) :
    parse (used ++ rest) = .ok q.ast := by
  obtain ⟨w, label, condition, x⟩ := q
  have hsplit : Query.terminals ⟨w, label, condition, x⟩ = .keyword (PyStr.lit "MATCH") ::
      ((.symbol '(' :: .name w :: (Query.labelTerminals label ++ [.symbol ')'])) ++
        (Query.conditionTerminals condition ++ [.keyword (PyStr.lit "RETURN"), .name x])) := by
    simp [Query.terminals]
  rw [Query.Derives, hsplit] at h
  obtain _ | ⟨hmatch, h⟩ := h
  obtain ⟨pattern, later, rfl, hpattern, h⟩ := denotes_append h
  obtain ⟨clause, last, rfl, hclause, h⟩ := denotes_append h
  obtain _ | ⟨hreturn, hlast⟩ := h
  simp only [List.cons_append, List.append_assoc, parse,
    matchToken_true (asks_match.yes _ _ hmatch), List.tail_cons, if_true,
    parsePattern_sentence hpattern, bind, Except.bind]
  cases condition with
  | none =>
    obtain _ | _ := hclause
    simp only [List.nil_append, peek_where_return hreturn,
      matchToken_true (asks_return.yes _ _ hreturn), List.tail_cons, Bool.false_eq_true, if_false,
      if_true, pure, Except.pure, parseReturn_sentence hlast]
    rfl
  | some c =>
    obtain _ | ⟨hwhere, hcondition⟩ := hclause
    simp only [List.cons_append, asks_where.yes _ _ hwhere, List.tail_cons,
      parseWhere_sentence hcondition, matchToken_true (asks_return.yes _ _ hreturn),
      if_true, pure, Except.pure, parseReturn_sentence hlast]
    rfl

end QueryParser

/-! ## The grammar, exactly -/

theorem Query.ast_injective {q q' : Query} (h : q.ast = q'.ast) : q = q' := by
  obtain ⟨w, label, condition, x⟩ := q
  obtain ⟨w', label', condition', x'⟩ := q'
  simp only [Query.ast, QueryAST.mk.injEq, List.cons.injEq, MatchClause.mk.injEq,
    TokenValue.str.injEq, ReturnClause.mk.injEq, and_true] at h
  obtain ⟨⟨rfl, hlabel⟩, hcondition, rfl⟩ := h
  have hlabels : label = label' := by
    cases label <;> cases label' <;> simp_all
  have hconditions : condition = condition' := by
    cases condition with
    | none => cases condition' <;> simp_all
    | some c =>
      cases condition' with
      | none => simp at hcondition
      | some c' =>
        obtain ⟨v, property, literal⟩ := c
        obtain ⟨v', property', literal'⟩ := c'
        simpa using hcondition
  rw [hlabels, hconditions]

/-- `parse` accepts the sentences of the grammar with their trees and rejects every other
list of tokens with a `SyntaxError`. -/
structure ParsesExactly (tokens : List Token) : Prop where
  accepts : ∀ ast, QueryParser.parse tokens = .ok ast ↔
    ∃ q : Query, q.Derives tokens ∧ ast = q.ast
  rejects : (¬ ∃ q : Query, q.Derives tokens) → QueryParser.Rejects (QueryParser.parse tokens)

/-- The tokens go on after a sentence. -/
def Continues (tokens : List Token) : Prop :=
  ∃ (q : Query) (used rest : List Token), tokens = used ++ rest ∧ rest ≠ [] ∧ q.Derives used

/-- The parser is exact on the tokens of a text if and only if these do not go on after a
sentence. -/
theorem parses_exactly_iff (W : WordChars) (text : PyStr) (tokens : List Token)
    (h : Lexer.tokenize W text = some (.ok tokens)) :
    ParsesExactly tokens ↔ ¬ Continues tokens := by
  constructor
  · intro hexact hcontinues
    obtain ⟨q, used, rest, rfl, hrest, hq⟩ := hcontinues
    obtain ⟨q', hq', hast⟩ := (hexact.accepts q.ast).mp (QueryParser.parse_sentence hq)
    obtain rfl := Query.ast_injective hast
    have hlength := hq.length_eq.trans hq'.length_eq.symm
    rw [List.length_append] at hlength
    exact hrest (List.eq_nil_of_length_eq_zero (by omega))
  · intro hends
    have hwhole : ∀ {q : Query} {used rest : List Token}, tokens = used ++ rest →
        q.Derives used → q.Derives tokens := by
      intro q used rest heq hq
      by_cases hrest : rest = []
      · rw [heq, hrest, List.append_nil]
        exact hq
      · exact absurd ⟨q, used, rest, heq, hrest, hq⟩ hends
    have haccept : ∀ {q : Query}, q.Derives tokens → QueryParser.parse tokens = .ok q.ast := by
      intro q hq
      have : QueryParser.parse (tokens ++ []) = .ok q.ast := QueryParser.parse_sentence hq
      rwa [List.append_nil] at this
    rcases QueryParser.parse_cases (Lexer.tokenize_lexed h) with
      ⟨q, used, rest, heq, hq, hparse⟩ | hrejects
    · have hq' := hwhole heq hq
      refine ⟨fun ast => ⟨fun hast => ⟨q, hq', ?_⟩, ?_⟩, fun hno => absurd ⟨q, hq'⟩ hno⟩
      · rw [hparse] at hast
        exact (Except.ok.inj hast).symm
      · intro hx
        obtain ⟨q', hq'', rfl⟩ := hx
        exact haccept hq''
    · obtain ⟨e, he⟩ := hrejects
      refine ⟨fun ast => ⟨fun hast => ?_, ?_⟩, fun _ => ⟨e, he⟩⟩
      · rw [he] at hast
        cases hast
      · intro hx
        obtain ⟨q, hq, rfl⟩ := hx
        exact haccept hq

/-! ## A sentence and a word too many -/

def person : Query := ⟨PyStr.lit "p", none, none, PyStr.lit "p"⟩

def personTokens : List Token :=
  [⟨.keyword, .str (PyStr.lit "MATCH"), 0⟩, ⟨.symbol, .str (PyStr.lit "("), 6⟩,
    ⟨.identifier, .str (PyStr.lit "p"), 7⟩, ⟨.symbol, .str (PyStr.lit ")"), 8⟩,
    ⟨.keyword, .str (PyStr.lit "RETURN"), 10⟩, ⟨.identifier, .str (PyStr.lit "p"), 17⟩]

theorem person_derives : person.Derives personTokens :=
  .cons ⟨rfl, _, rfl, by decide⟩ (.cons ⟨rfl, rfl⟩ (.cons ⟨rfl, rfl⟩ (.cons ⟨rfl, rfl⟩
    (.cons ⟨rfl, _, rfl, by decide⟩ (.cons ⟨rfl, rfl⟩ .nil)))))

theorem parses_exactly_person :
    Lexer.tokenize WordChars.least (PyStr.lit "MATCH (p) RETURN p") = some (.ok personTokens) ∧
      (ParsesExactly personTokens ↔ ¬ Continues personTokens) := by
  have h : Lexer.tokenize WordChars.least (PyStr.lit "MATCH (p) RETURN p") =
      some (.ok personTokens) := by decide +kernel
  exact ⟨h, parses_exactly_iff WordChars.least (PyStr.lit "MATCH (p) RETURN p") personTokens h⟩

/-- `MATCH (p) RETURN p p`: the last token is never looked at. -/
theorem trailing_token_ignored : ¬ ∀ (W : WordChars) (text : PyStr) (tokens : List Token),
    Lexer.tokenize W text = some (.ok tokens) → ParsesExactly tokens := by
  intro h
  have hexact := h WordChars.least (PyStr.lit "MATCH (p) RETURN p p")
    (personTokens ++ [⟨.identifier, .str (PyStr.lit "p"), 19⟩]) (by decide +kernel)
  have hparse : QueryParser.parse (personTokens ++ [⟨.identifier, .str (PyStr.lit "p"), 19⟩]) =
      .ok person.ast := QueryParser.parse_sentence person_derives
  obtain ⟨q, hq, hast⟩ := (hexact.accepts _).mp hparse
  obtain rfl := Query.ast_injective hast
  have hlength := hq.length_eq
  simp [personTokens, Query.terminals, person, Query.labelTerminals,
    Query.conditionTerminals] at hlength

end PythonPortfolio.Nebula
