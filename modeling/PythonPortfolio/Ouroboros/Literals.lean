import PythonPortfolio.Ouroboros.Operands

/-!
# String literals

A string literal goes through the comment filter, the word splitter and the lookahead for
labels before the compiler sees it. It arrives whole when it has no blank and no comment
sign in it and is not a colon; the lines around it must be whole instructions, so that
none of their words takes the line of the literal for its operand.
-/

namespace PythonPortfolio.Ouroboros

open Library Library.BigEndian Compiler

def linesTokens (lines : List PyStr) : List Token := lines.flatMap lineTokens

/-- The constants that whole instructions push, in their order. -/
def literalsOf (tokens : List Token) : List Literal :=
  match listing tokens with
  | .ok items => items.flatMap Item.literals
  | .error _ => []

/-- The number of bytes of a listing. -/
def listingSize (items : List Item) : Nat := (items.map Item.size).sum

/-- The literal is one item between the others: an operand for `s`, in a listing in which
any plain literal could stand in its place. -/
def Intact (source : PyStr) (pre post : List PyStr) (s : PyStr) : Prop :=
  ∃ (before after : List Item) (co : CodeObject), Compiler.init.compile source = .ok co ∧
    co = codeObject (before ++ Item.const (.str s) :: after) ∧
    Refers co.coCode co.coConsts (listingSize before) .loadConst (.str s) ∧
    ∀ source' line val arg, PyStr.splitlines source' = pre ++ line :: post →
      SpellsLiteral val arg → OperandLine (PyStr.lit "PUSH") arg line →
        Compiler.init.compile source' = .ok (codeObject (before ++ Item.const val :: after))

/-! ## The tokens of a literal -/

theorem lineTokens_push {s : PyStr} (hs : Quotable s) :
    lineTokens (PyStr.lit "PUSH " ++ quoted s) =
      [⟨.identifier, PyStr.lit "PUSH"⟩, ⟨.string, s⟩] := by
  have hhash : PyChar.scalar '#' ∉ PyStr.lit "PUSH " ++ quoted s := by
    have hpush : PyChar.scalar '#' ∉ PyStr.lit "PUSH " := by decide
    simp only [quoted, List.mem_append, List.mem_cons, List.not_mem_nil, or_false, not_or]
    exact ⟨hpush, by decide, fun hmem => (hs.1 _ hmem).2.1 rfl, by decide⟩
  have hspaced : PyStr.Spaced [PyStr.lit "PUSH", quoted s]
      ([] ++ (PyStr.lit "PUSH" ++ (PyStr.lit " " ++ (quoted s ++ [])))) :=
    PyStr.spaced_pair (by decide) (by decide) (by decide) (by decide) (word_quoted hs) (by decide)
  rw [List.append_nil, List.nil_append] at hspaced
  have hsplit : PyStr.split (PyStr.lit "PUSH " ++ quoted s) = [PyStr.lit "PUSH", quoted s] :=
    PyStr.split_spaced hspaced
  rw [lineTokens, PyStr.before_eq_self hhash, hsplit, List.flatMap_cons, List.flatMap_singleton,
    quoted, partTokens_quoted]
  rfl

/-- The line of a plain literal is two tokens. -/
theorem push_tokens {val : Literal} {arg line : PyStr} (hval : SpellsLiteral val arg)
    (hline : OperandLine (PyStr.lit "PUSH") arg line) :
    ∃ token next, lineTokens line = [token, next] ∧ piece? token = some (.operand .loadConst) ∧
      token.val ≠ PyStr.lit ":" ∧ next.val ≠ PyStr.lit ":" ∧
      Compiler.argument next = .ok val := by
  obtain ⟨words, htokens, hwords⟩ := lineTokens_renders (pushLine_renders hval hline)
  cases hwords with
  | plain hi => cases hi
  | @push _ w arg hw harg =>
    obtain ⟨next, hnext, hcolon, hargument⟩ := partTokens_literal harg
    have hne : w ≠ PyStr.lit ":" := identifier_ne_colon (identifier_of_mnemonic hw (by decide))
    rw [mnemonic_tokens hw (by decide), List.flatMap_singleton, hnext] at htokens
    refine ⟨⟨.identifier, w⟩, next, htokens, ?_, hne, hcolon, hargument⟩
    rw [piece?, if_pos rfl]
    dsimp only
    rw [hw.2]
    rfl

/-! ## Listings around the literal -/

/-- Between whole instructions the literal is one item. -/
theorem listing_push {before after : List Token} {items items' : List Item} {token next : Token}
    {val : Literal} (hbefore : listing before = .ok items) (hafter : listing after = .ok items')
    (hop : piece? token = some (.operand .loadConst)) (htoken : token.val ≠ PyStr.lit ":")
    (hnext : next.val ≠ PyStr.lit ":") (hval : Compiler.argument next = .ok val) :
    listing (before ++ token :: next :: after) = .ok (items ++ .const val :: items') := by
  have hlisted : listed token (some next) = .ok (true, [.const val]) := by
    simp only [listed, hop, operandItem, if_true, hval]
    rfl
  rw [listing_append hbefore (noColon_cons htoken _), listing, if_neg hnext, hlisted, hafter]
  rfl

theorem map_error {α β : Type} {r : Except CompileError α} {f : α → β} {e : CompileError} :
    r.map f = .error e ↔ r = .error e := by
  cases r with
  | error e' =>
    rw [Except.map, Except.error.injEq, Except.error.injEq]
  | ok x =>
    constructor
    · intro h
      cases h
    · intro h
      cases h

/-- Where the lines before break off, their last word takes `PUSH` for its operand, and the
literal is passed over. -/
theorem listing_broken {before : List Token} {e : CompileError} (h : listing before = .error e)
    (token : Token) (htoken : token.val ≠ PyStr.lit ":") (after : List Token) :
    ∃ r, ∀ s, listing (before ++ token :: ⟨.string, s⟩ :: after) = r := by
  have hpass : ∃ r, ∀ s, listing (⟨.string, s⟩ :: after) = r := by
    cases after with
    | nil => exact ⟨.ok [], fun s => rfl⟩
    | cons next rest =>
      by_cases hnext : next.val = PyStr.lit ":"
      · exact ⟨listing rest, fun s => by rw [listing, if_pos hnext]⟩
      · refine ⟨(listing (next :: rest)).map ([] ++ ·), fun s => ?_⟩
        exact listing_cons (noColon_cons hnext rest) rfl
  fun_induction listing before with
  | case1 => cases h
  | case2 first =>
    obtain ⟨r, hr⟩ := hpass
    cases hl : listed first (some token) with
    | error e =>
      exact ⟨.error e, fun s => by rw [List.singleton_append, listing, if_neg htoken, hl]⟩
    | ok p =>
      obtain ⟨consumed, items⟩ := p
      rcases listed_cases hl with ⟨-, hop, -⟩ | ⟨rfl, -⟩
      · obtain ⟨items', hl'⟩ := listed_alone hop none
        rw [hl'] at h
        cases h
      · refine ⟨r.map (items ++ ·), fun s => ?_⟩
        rw [List.singleton_append, listing, if_neg htoken, hl, ← hr s]
  | case3 first second rest hcolon ih =>
    obtain ⟨r, hr⟩ := ih h
    refine ⟨r, fun s => ?_⟩
    rw [List.cons_append, List.cons_append, listing, if_pos hcolon]
    exact hr s
  | case4 first second rest hcolon e hl =>
    exact ⟨.error e, fun s => by
      rw [List.cons_append, List.cons_append, listing, if_neg hcolon, hl]⟩
  | case5 first second rest hcolon items hl ih =>
    obtain ⟨r, hr⟩ := ih (map_error.mp h)
    refine ⟨r.map (items ++ ·), fun s => ?_⟩
    rw [List.cons_append, List.cons_append, listing, if_neg hcolon, hl, hr s]
  | case6 first second rest hcolon items hl ih =>
    obtain ⟨r, hr⟩ := ih (map_error.mp h)
    refine ⟨r.map (items ++ ·), fun s => ?_⟩
    rw [List.cons_append, List.cons_append, listing, if_neg hcolon, hl, ← List.cons_append, hr s]

/-! ## When the literal is intact -/

theorem literals_around (before after : List Item) (val : Literal) :
    (before ++ Item.const val :: after).flatMap Item.literals =
      before.flatMap Item.literals ++ val :: after.flatMap Item.literals := by
  rw [List.flatMap_append, List.flatMap_cons]
  rfl

theorem mem_constsOf (before after : List Item) (val : Literal) :
    val ∈ constsOf (before ++ .const val :: after) := by
  refine mem_internAll.mpr (Or.inr ?_)
  rw [literals_around]
  exact List.mem_append_right _ List.mem_cons_self

/-- The place of a constant is the number of other constants pushed before its first push. -/
theorem poolIndex_constsOf (before after : List Item) (val : Literal) :
    poolIndex (constsOf (before ++ .const val :: after)) val =
      ((before.flatMap Item.literals).takeWhile (· ≠ val)).dedup.length := by
  rw [constsOf, literals_around, poolIndex_internAll]

theorem length_encoded (consts : List Literal) (names : List PyStr) (items : List Item) :
    (items.flatMap (Item.encode consts names)).length = listingSize items := by
  rw [List.length_flatMap, listingSize]
  refine congrArg List.sum (List.map_congr_left fun item _ => ?_)
  cases item <;> simp [Item.encode, Item.size]

/-- The item after `before` refers to its literal when the place of that fits two bytes. -/
theorem refers_const (before after : List Item) (val : Literal) :
    Refers (codeObject (before ++ .const val :: after)).coCode
        (codeObject (before ++ .const val :: after)).coConsts (listingSize before) .loadConst val ↔
      poolIndex (constsOf (before ++ .const val :: after)) val < 65536 := by
  have hcode : ∀ consts names,
      ((before ++ Item.const val :: after).flatMap (Item.encode consts names)).drop
        (listingSize before) = OpCode.loadConst.byte :: (toBytes 2 (poolIndex consts val) ++
          after.flatMap (Item.encode consts names)) := by
    intro consts names
    rw [List.flatMap_append, List.flatMap_cons, List.drop_left' (length_encoded _ _ _)]
    rfl
  exact refers_iff (hcode _ _) (nodup_internAll List.nodup_nil _) (mem_constsOf before after val)

/-- The text of the lines around a literal of `k` letters. -/
theorem splitlines_letters {source line : PyStr} {pre post : List PyStr}
    (hlines : PyStr.splitlines source = pre ++ line :: post) (k : Nat) :
    PyStr.splitlines (PyStr.unlines (pre ++ (PyStr.lit "PUSH " ++ quoted (letters k)) :: post)) =
      pre ++ (PyStr.lit "PUSH " ++ quoted (letters k)) :: post := by
  have hunbroken : ∀ l ∈ pre ++ line :: post, ∀ c ∈ l, c.isLineBreak = false := by
    rw [← hlines]
    exact fun l hl => PyStr.not_lineBreak_of_mem_splitlines hl
  refine PyStr.splitlines_unlines fun l hl => ?_
  rcases List.mem_append.mp hl with hl | hl
  · exact hunbroken l (List.mem_append_left _ hl)
  · rcases List.mem_cons.mp hl with rfl | hl
    · exact pushLine_letters k
    · exact hunbroken l (List.mem_append_right _ (List.mem_cons_of_mem _ hl))

theorem tokenize_around {source line : PyStr} {pre post : List PyStr}
    (hlines : PyStr.splitlines source = pre ++ line :: post) :
    tokenize source = linesTokens pre ++ (lineTokens line ++ linesTokens post) := by
  rw [tokenize_eq, hlines, List.flatMap_append, List.flatMap_cons]
  rfl

/-- No listing has all literals of letters among its constants. -/
theorem letters_not_all (items : List Item) : ¬ ∀ k, .str (letters k) ∈ constsOf items := by
  intro hall
  have hsub : ((List.range ((constsOf items).length + 1)).map fun k =>
      Literal.str (letters k)) ⊆ constsOf items := by
    intro val hval
    obtain ⟨k, -, rfl⟩ := List.mem_map.mp hval
    exact hall k
  have := (List.subperm_of_subset (nodup_letters _) hsub).length_le
  rw [List.length_map, List.length_range] at this
  omega

/-- If any plain literal can stand between the lines, these are whole instructions. -/
theorem whole_around {source line : PyStr} {pre post : List PyStr}
    (hlines : PyStr.splitlines source = pre ++ line :: post) {before after : List Item}
    (hany : ∀ source' line val arg, PyStr.splitlines source' = pre ++ line :: post →
      SpellsLiteral val arg → OperandLine (PyStr.lit "PUSH") arg line →
        Compiler.init.compile source' = .ok (codeObject (before ++ Item.const val :: after))) :
    ∃ items items', listing (linesTokens pre) = .ok items ∧
      listing (linesTokens post) = .ok items' := by
  have hlisting : ∀ k, ∃ items, listing (linesTokens pre ++ ⟨.identifier, PyStr.lit "PUSH"⟩ ::
      ⟨.string, letters k⟩ :: linesTokens post) = .ok items ∧
        .str (letters k) ∈ constsOf items := by
    intro k
    have hsplit := splitlines_letters hlines k
    have hcompile := hany _ _ _ _ hsplit (.str (quotable_letters k)) (pushLine _)
    rw [Compiler.compile_eq, tokenize_around hsplit,
      lineTokens_push (quotable_letters k)] at hcompile
    obtain ⟨items, hitems, hco⟩ := map_ok.mp hcompile
    refine ⟨items, hitems, ?_⟩
    have hconsts : constsOf items = constsOf (before ++ Item.const (.str (letters k)) :: after) :=
      congrArg CodeObject.coConsts hco
    rw [hconsts]
    exact mem_constsOf before after _
  cases hpre : listing (linesTokens pre) with
  | error e =>
    obtain ⟨r, hr⟩ := listing_broken hpre ⟨.identifier, PyStr.lit "PUSH"⟩ (by decide)
      (linesTokens post)
    obtain ⟨items, hitems, -⟩ := hlisting 0
    rw [hr] at hitems
    refine absurd (fun k => ?_) (letters_not_all items)
    obtain ⟨items', hitems', hmem⟩ := hlisting k
    rw [hr, hitems] at hitems'
    cases hitems'
    exact hmem
  | ok items =>
    obtain ⟨all, hall, -⟩ := hlisting 0
    rw [listing_append hpre (noColon_cons (by decide) _)] at hall
    obtain ⟨rest, hrest, -⟩ := map_ok.mp hall
    rw [listing, if_neg (by decide)] at hrest
    obtain ⟨items', hpost, -⟩ := map_ok.mp hrest
    exact ⟨items, items', rfl, hpost⟩

/-- Lines that render statements are whole instructions, unless the target of a jump reads as
one with an operand. -/
theorem whole_of_renders {lines : List PyStr} {statements : List (Option Statement)}
    (h : List.Forall₂ RendersLine lines statements)
    (hp : ∀ s ∈ statements.reduceOption, s.Harmless) : Whole (linesTokens lines) := by
  obtain ⟨words, hspells, htokens⟩ := lineTokens_program h
  have hgenerate := Compiler.generate_program hspells hp Compiler.init
  rcases Compiler.generate_listing Compiler.init (linesTokens lines) with
    ⟨e, -, herr⟩ | ⟨items, -, hl, -⟩
  · rw [linesTokens, htokens, hgenerate] at herr
    cases herr
  · exact whole_iff.mpr ⟨items, hl⟩

/-- A string literal is compiled intact exactly when the lines around it are whole
instructions, it has no blank and no comment sign in it and is not a colon, and fewer than
`65536` other constants are pushed before its first push. -/
theorem literal_intact_iff {source line s : PyStr} {pre post : List PyStr}
    (hlines : PyStr.splitlines source = pre ++ line :: post)
    (hline : OperandLine (PyStr.lit "PUSH") (quoted s) line) (hs : .scalar '"' ∉ s) :
    Intact source pre post s ↔ Whole (linesTokens pre) ∧ Whole (linesTokens post) ∧ Quotable s ∧
      ((literalsOf (linesTokens pre)).takeWhile (· ≠ .str s)).dedup.length < 65536 := by
  -- what compiles between whole instructions
  have hbetween : ∀ {items items' : List Item}, listing (linesTokens pre) = .ok items →
      listing (linesTokens post) = .ok items' → ∀ source' line val arg,
        PyStr.splitlines source' = pre ++ line :: post → SpellsLiteral val arg →
          OperandLine (PyStr.lit "PUSH") arg line → Compiler.init.compile source' =
            .ok (codeObject (items ++ Item.const val :: items')) := by
    intro items items' hpre hpost source' line' val arg hlines' hval hline'
    obtain ⟨token, next, htokens, hop, htoken, hnext, hargument⟩ := push_tokens hval hline'
    rw [Compiler.compile_eq, tokenize_around hlines', htokens]
    exact congrArg (Except.map codeObject)
      (listing_push hpre hpost hop htoken hnext hargument)
  constructor
  · rintro ⟨before, after, co, hco, rfl, hrefers, hany⟩
    obtain ⟨items, items', hpre, hpost⟩ := whole_around hlines hany
    obtain ⟨hclean, hcolon⟩ := string_const hco (mem_constsOf before after _)
    have hquotable : Quotable s :=
      ⟨fun c hc => ⟨(hclean c hc).1, (hclean c hc).2, fun he => hs (he ▸ hc)⟩, hcolon⟩
    refine ⟨whole_iff.mpr ⟨items, hpre⟩, whole_iff.mpr ⟨items', hpost⟩, hquotable, ?_⟩
    have hactual := hbetween hpre hpost source line _ _ hlines (.str hquotable) hline
    rw [hco] at hactual
    have hconsts : constsOf (before ++ Item.const (.str s) :: after) =
        constsOf (items ++ Item.const (.str s) :: items') :=
      congrArg CodeObject.coConsts (Except.ok.inj hactual)
    have hplace := (refers_const before after (.str s)).mp hrefers
    rw [hconsts, poolIndex_constsOf] at hplace
    rw [literalsOf, hpre]
    exact hplace
  · rintro ⟨hpre, hpost, hquotable, hcount⟩
    obtain ⟨items, hpre⟩ := whole_iff.mp hpre
    obtain ⟨items', hpost⟩ := whole_iff.mp hpost
    rw [literalsOf, hpre] at hcount
    rw [← poolIndex_constsOf items items'] at hcount
    have hall := hbetween hpre hpost
    exact ⟨items, items', _, hall source line _ _ hlines (.str hquotable) hline, rfl,
      (refers_const items items' _).mpr hcount, hall⟩

/-- A literal between two other instructions. -/
theorem literal_intact_iff_between : Intact (PyStr.lit "PUSH 1\nPUSH \"ab\"\nADD")
    [PyStr.lit "PUSH 1"] [PyStr.lit "ADD"] (PyStr.lit "ab") := by
  have hlines : PyStr.splitlines (PyStr.lit "PUSH 1\nPUSH \"ab\"\nADD") =
      [PyStr.lit "PUSH 1"] ++ (PyStr.lit "PUSH " ++ quoted (PyStr.lit "ab")) ::
        [PyStr.lit "ADD"] := by decide
  refine (literal_intact_iff hlines (pushLine _) (by decide)).mpr ⟨?_, ?_, ?_, by decide⟩
  · exact whole_iff.mpr ⟨[.const (.int 1)], by decide⟩
  · exact whole_iff.mpr ⟨[.mnemonic .add], by decide⟩
  · exact ⟨by decide, by decide⟩

def resultSource : PyStr := PyStr.lit "PUSH \"Result is correct!\"\nPRINT"

/-- The literal is cut at its first blank, and loses a letter besides. -/
theorem result_cut :
    (∃ co, Compiler.init.compile resultSource = .ok co ∧
      co.coConsts = [.str (PyStr.lit "Resul")]) ∧
    ¬ ∀ (source line s : PyStr) (pre post : List PyStr),
      PyStr.splitlines source = pre ++ line :: post →
        OperandLine (PyStr.lit "PUSH") (quoted s) line → .scalar '"' ∉ s →
          Intact source pre post s := by
  refine ⟨⟨_, rfl, by decide⟩, fun hall => ?_⟩
  have hlines : PyStr.splitlines resultSource =
      [] ++ (PyStr.lit "PUSH " ++ quoted (PyStr.lit "Result is correct!")) ::
        [PyStr.lit "PRINT"] := by decide
  obtain ⟨before, after, co, hco, rfl, -, -⟩ :=
    hall resultSource _ _ [] _ hlines (pushLine _) (by decide)
  obtain ⟨hclean, -⟩ := string_const hco (mem_constsOf before after _)
  exact absurd (hclean (.scalar ' ') (by decide)).1 (by decide)

end PythonPortfolio.Ouroboros
