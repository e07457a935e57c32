import PythonPortfolio.Ouroboros.Assembly

/-!
# What the compiler makes of a program

Each statement of a rendered program turns into its own tokens, and each batch of
tokens into the code of that statement. Pool indices are read off the final pools:
later statements only append to them.
-/

namespace PythonPortfolio.Ouroboros

open Library Library.BigEndian

/-! ## Tokens -/

theorem isWordChar_colon : PyChar.isWordChar (.scalar ':') = false := by decide

theorem isWordChar_quote : PyChar.isWordChar (.scalar '"') = false := by decide

theorem isWordChar_hash : PyChar.isWordChar (.scalar '#') = false := by decide

theorem not_mem_of_wordChars {s : PyStr} (h : ∀ c ∈ s, c.isWordChar = true) {c : PyChar}
    (hc : c.isWordChar = false) : c ∉ s := fun hmem => by
  rw [h c hmem] at hc
  cases hc

/-- A word of letters and digits that starts with a letter is one token. -/
theorem partTokens_identifier {x : PyStr} (hx : PyStr.Identifier x) :
    partTokens x = [⟨.identifier, x⟩] := by
  obtain ⟨hne, hword⟩ := PyStr.identifier_wordChars hx
  have hcolon : x.getLast? ≠ some (.scalar ':') := fun h =>
    not_mem_of_wordChars hword isWordChar_colon (List.mem_of_getLast? h)
  cases x with
  | nil => exact absurd rfl hne
  | cons c rest =>
    have hdigit : PyStr.isDigit (c :: rest) = false := by
      rw [PyStr.isDigit, List.all_cons, PyChar.isDigit_of_isLetter hx.1]
      rfl
    have hquote : (c :: rest).head? ≠ some (.scalar '"') := fun h => by
      have := not_mem_of_wordChars hword isWordChar_quote
      exact this (List.mem_of_mem_head? h)
    rw [partTokens, if_neg hcolon, hdigit, if_neg Bool.false_ne_true, if_neg hquote]

theorem partTokens_label (l : PyStr) :
    partTokens (l ++ [.scalar ':']) = [⟨.identifier, l⟩, ⟨.symbol, PyStr.lit ":"⟩] := by
  rw [partTokens, if_pos List.getLast?_concat, List.dropLast_concat]

theorem identifier_of_mnemonic {mnemonic w : PyStr} (hw : SpellsMnemonic mnemonic w)
    (hne : mnemonic ≠ []) : PyStr.Identifier w := by
  obtain ⟨hletters, hupper⟩ := hw
  cases w with
  | nil => exact absurd hupper.symm hne
  | cons c rest =>
    exact ⟨hletters c List.mem_cons_self, fun d hd =>
      PyChar.isWordChar_of_isLetter (hletters d (List.mem_cons_of_mem _ hd))⟩

/-- A word in quotes is a string token, whatever it holds. -/
theorem partTokens_quoted (s : PyStr) :
    partTokens (.scalar '"' :: (s ++ [.scalar '"'])) = [⟨.string, s⟩] := by
  have hlast : (PyChar.scalar '"' :: (s ++ [.scalar '"'])).getLast? = some (.scalar '"') := by
    rw [← List.cons_append, List.getLast?_concat]
  have hquote : PyChar.isDigit (.scalar '"') = false := by decide
  have hdigit : PyStr.isDigit (.scalar '"' :: (s ++ [.scalar '"'])) = false := by
    rw [PyStr.isDigit, List.all_cons, hquote]
    rfl
  rw [partTokens, hlast, if_neg (by decide), hdigit, if_neg Bool.false_ne_true,
    if_pos List.head?_cons, List.tail_cons, List.dropLast_concat]

/-- The token of a literal, and the constant the compiler takes it for. -/
theorem partTokens_literal {val : Literal} {arg : PyStr} (h : SpellsLiteral val arg) :
    ∃ token, partTokens arg = [token] ∧ token.val ≠ PyStr.lit ":" ∧
      Compiler.argument token = .ok val := by
  cases h with
  | @int n digits hne hn =>
    have hdecimal := PyStr.decimal_of_int? hn
    have hcolon : PyChar.decimal (.scalar ':') = none := by decide
    have hmem : PyChar.scalar ':' ∉ arg := fun hmem => by
      have := hdecimal _ hmem
      rw [hcolon] at this
      cases this
    have hdigit : PyStr.isDigit arg = true := by
      rw [PyStr.isDigit, decide_eq_true hne, Bool.true_and, List.all_eq_true]
      intro c hc
      rw [PyChar.isDigit, hdecimal c hc, Bool.true_or]
    refine ⟨⟨.number, arg⟩, ?_, fun he => hmem ?_, ?_⟩
    · rw [partTokens, if_neg fun hl => hmem (List.mem_of_getLast? hl), if_pos hdigit]
    · rw [show arg = PyStr.lit ":" from he]
      decide
    · simp only [Compiler.argument, hn]
  | @str s hs => exact ⟨⟨.string, s⟩, partTokens_quoted s, hs.2, rfl⟩

/-! ## Lines -/

def lineTokens (line : PyStr) : List Token :=
  (PyStr.split (PyStr.before (.scalar '#') line)).flatMap partTokens

/-- Dropping blank lines and stripping the others does not change the tokens. -/
theorem tokenize_eq (source : PyStr) :
    tokenize source = (PyStr.splitlines source).flatMap lineTokens := by
  unfold tokenize cleanLines
  induction PyStr.splitlines source with
  | nil => rfl
  | cons line lines ih =>
    rw [List.flatMap_cons, ← ih]
    by_cases hblank : PyStr.strip line = []
    · have hnone : lineTokens line = [] := by
        have hbefore : PyStr.Blank (PyStr.before (.scalar '#') line) := fun c hc =>
          PyStr.blank_of_strip hblank c ((List.takeWhile_prefix _).subset hc)
        rw [lineTokens, PyStr.split_blank hbefore, List.flatMap_nil]
      rw [List.filter_cons_of_neg (by simp [hblank]), hnone, List.nil_append]
    · rw [List.filter_cons_of_pos (by simp [hblank]), List.map_cons, List.flatMap_cons,
        PyStr.split_strip]
      rfl

theorem hash_not_mem_literal {val : Literal} {arg : PyStr} (h : SpellsLiteral val arg) :
    PyChar.scalar '#' ∉ arg := by
  cases h with
  | int hne hn =>
    have hhash : PyChar.decimal (.scalar '#') = none := by decide
    intro hmem
    have := PyStr.decimal_of_int? hn _ hmem
    rw [hhash] at this
    cases this
  | str hs =>
    intro hmem
    rcases List.mem_cons.mp hmem with he | hmem
    · exact absurd he (by decide)
    · rcases List.mem_append.mp hmem with hmem | hmem
      · exact (hs.1 _ hmem).2.1 rfl
      · exact absurd (List.mem_singleton.mp hmem) (by decide)

/-- No word of a statement contains the comment sign. -/
theorem hash_not_mem_spells {statement : Statement} {words : List PyStr}
    (h : Spells statement words) : ∀ w ∈ words, PyChar.scalar '#' ∉ w := by
  have hmnemonic : ∀ {mnemonic w : PyStr}, SpellsMnemonic mnemonic w → PyChar.scalar '#' ∉ w :=
    fun hw => not_mem_of_wordChars (fun c hc => PyChar.isWordChar_of_isLetter (hw.1 c hc))
      isWordChar_hash
  have hidentifier : ∀ {x : PyStr}, PyStr.Identifier x → PyChar.scalar '#' ∉ x := fun hx =>
    not_mem_of_wordChars (PyStr.identifier_wordChars hx).2 isWordChar_hash
  cases h with
  | push hw harg => simpa using ⟨hmnemonic hw, hash_not_mem_literal harg⟩
  | store hw hx => simpa using ⟨hmnemonic hw, hidentifier hx⟩
  | load hw hx => simpa using ⟨hmnemonic hw, hidentifier hx⟩
  | plain hi hw => simpa using hmnemonic hw
  | label hl => simpa using hidentifier hl
  | jump hw hl => simpa using ⟨hmnemonic hw, hidentifier hl⟩
  | jumpIfFalse hw hl => simpa using ⟨hmnemonic hw, hidentifier hl⟩

theorem lineTokens_renders {line : PyStr} {statement : Option Statement}
    (h : RendersLine line statement) :
    ∃ words, lineTokens line = words.flatMap partTokens ∧
      match statement with
      | none => words = []
      | some s => Spells s words := by
  obtain ⟨words, text, comment, rfl, hspaced, hcomment, hwords⟩ := h
  refine ⟨words, ?_, hwords⟩
  have hspace : PyChar.isSpace (.scalar '#') = false := by decide
  have hhash : PyChar.scalar '#' ∉ text := by
    refine PyStr.not_mem_spaced hspaced hspace fun w hw => ?_
    cases statement with
    | none =>
      rw [hwords] at hw
      cases hw
    | some s => exact hash_not_mem_spells hwords w hw
  have hbefore : PyStr.before (.scalar '#') (text ++ comment) = text := by
    cases comment with
    | nil => rw [List.append_nil, PyStr.before_eq_self hhash]
    | cons c rest =>
      rw [show c = .scalar '#' from hcomment]
      exact PyStr.before_append hhash rest
  rw [lineTokens, hbefore, PyStr.split_spaced hspaced]

/-- The tokens of some lines are those of the statements they render. -/
theorem lineTokens_program {texts : List PyStr} {lines : List (Option Statement)}
    (h : List.Forall₂ RendersLine texts lines) :
    ∃ words, List.Forall₂ Spells lines.reduceOption words ∧
      texts.flatMap lineTokens = words.flatMap fun ws => ws.flatMap partTokens := by
  induction h with
  | nil => exact ⟨[], List.Forall₂.nil, rfl⟩
  | @cons text statement texts lines hline _ ih =>
    obtain ⟨words, hspells, htokens⟩ := ih
    obtain ⟨ws, hws, hmatch⟩ := lineTokens_renders hline
    rw [List.flatMap_cons, hws, htokens]
    cases statement with
    | none =>
      subst hmatch
      rw [List.reduceOption_cons_of_none]
      exact ⟨words, hspells, rfl⟩
    | some s =>
      rw [List.reduceOption_cons_of_some]
      exact ⟨ws :: words, List.Forall₂.cons hmatch hspells, rfl⟩

/-- The tokens of a text are those of the statements it renders. -/
theorem tokenize_renders {source : PyStr} {program : List Statement} (h : Renders source program) :
    ∃ words, List.Forall₂ Spells program words ∧
      tokenize source = words.flatMap fun ws => ws.flatMap partTokens := by
  obtain ⟨lines, hlines, rfl⟩ := h
  rw [tokenize_eq]
  exact lineTokens_program hlines

/-! ## Code -/

def Statement.literals : Statement → List Literal
  | .instr (.push val) => [val]
  | _ => []

/-- The variables a statement names; a label is not one. -/
def Statement.names : Statement → List PyStr
  | .instr (.store x) | .instr (.load x) => [x]
  | _ => []

/-- What the word after a jump is compiled to: it is taken for an instruction. -/
def targetCode (target : PyStr) : Bytes :=
  match OpCode.attribute? (PyStr.upper target) with
  | some op => [op.byte]
  | none => []

/-- The code of a statement, by the final pools. -/
def encode (consts : List Literal) (names : List PyStr) : Statement → Bytes
  | .instr (.push val) => OpCode.loadConst.byte :: toBytes 2 (poolIndex consts val)
  | .instr (.store x) => OpCode.storeName.byte :: toBytes 2 (poolIndex names x)
  | .instr (.load x) => OpCode.loadName.byte :: toBytes 2 (poolIndex names x)
  | .instr i => i.mnemonic?.toList.map OpCode.byte
  | .jump conditional target =>
    (if conditional then OpCode.jmpIfFalse else OpCode.jmp).byte :: targetCode target

/-- The target of a jump does not read as an instruction with an operand. -/
def Statement.Harmless : Statement → Prop
  | .instr _ => True
  | .jump _ target => PyStr.upper target ≠ PyStr.lit "PUSH" ∧
      PyStr.upper target ≠ PyStr.lit "STORE" ∧ PyStr.upper target ≠ PyStr.lit "LOAD"

namespace Compiler

/-- The compiler after a statement. -/
def assemble (c : Compiler) : Statement → Compiler
  | .instr (.push val) => c.emitConst val
  | .instr (.store x) => c.emitName .storeName x
  | .instr (.load x) => c.emitName .loadName x
  | .instr (.label l) => { c with labels := c.labels.set l c.code.length }
  | .instr i => i.mnemonic?.elim c c.emit
  | .jump conditional target =>
    let c := c.emit (if conditional then .jmpIfFalse else .jmp)
    match OpCode.attribute? (PyStr.upper target) with
    | some op => c.emit op
    | none => { c with unknown := c.unknown ++ [target] }

/-- The walk is not about to take a token for a label. -/
def NoColon (tokens : List Token) : Prop := ∀ t ∈ tokens.head?, t.val ≠ PyStr.lit ":"

theorem generate_cons {c : Compiler} {token : Token} {rest : List Token} (h : NoColon rest) :
    c.generate (token :: rest) =
      match c.instruction token rest.head? with
      | .error e => .error e
      | .ok (true, c) => c.generate rest.tail
      | .ok (false, c) => c.generate rest := by
  cases rest with
  | nil =>
    rw [generate, List.head?_nil, List.tail_nil]
    cases hi : c.instruction token none with
    | error e => rfl
    | ok r =>
      obtain ⟨consumed, c'⟩ := r
      cases consumed <;> rfl
  | cons next rest =>
    rw [generate]
    exact (if_neg (h next rfl)).trans rfl

/-- A jump is an attribute of `OpCode`, which the first branch has taken. -/
theorem not_jump_of_attribute? {name : PyStr} (hop : OpCode.attribute? name = none) :
    ¬ (name = PyStr.lit "JMP_IF_FALSE" ∨ name = PyStr.lit "JMP") := by
  rintro (rfl | rfl) <;> revert hop <;> decide

/-- What the walk makes of a token in the place of an instruction. -/
inductive InstructionStep (c : Compiler) (token : Token) (next : Option Token) :
    Except CompileError (Bool × Compiler) → Prop
  | opcode (op : OpCode) (htyp : token.typ = .identifier)
      (hop : OpCode.attribute? (PyStr.upper token.val) = some op) :
      InstructionStep c token next (.ok (false, c.emit op))
  | push (arg : Token) (val : Literal) (htyp : token.typ = .identifier)
      (hname : PyStr.upper token.val = PyStr.lit "PUSH") (hnext : next = some arg)
      (harg : argument arg = .ok val) : InstructionStep c token next (.ok (true, c.emitConst val))
  | store (arg : Token) (htyp : token.typ = .identifier)
      (hname : PyStr.upper token.val = PyStr.lit "STORE") (hnext : next = some arg) :
      InstructionStep c token next (.ok (true, c.emitName .storeName arg.val))
  | load (arg : Token) (htyp : token.typ = .identifier)
      (hname : PyStr.upper token.val = PyStr.lit "LOAD") (hnext : next = some arg) :
      InstructionStep c token next (.ok (true, c.emitName .loadName arg.val))
  | unknown (htyp : token.typ = .identifier)
      (hop : OpCode.attribute? (PyStr.upper token.val) = none)
      (hname : (Statement.jump true token.val).Harmless) :
      InstructionStep c token next (.ok (false, { c with unknown := c.unknown ++ [token.val] }))
  | other (htyp : token.typ ≠ .identifier) : InstructionStep c token next (.ok (false, c))
  | missing (hnext : next = none) : InstructionStep c token next (.error .indexError)
  | notConverted (arg : Token) (e : CompileError) (hnext : next = some arg)
      (harg : argument arg = .error e) : InstructionStep c token next (.error e)

theorem instruction_step (c : Compiler) (token : Token) (next : Option Token) :
    InstructionStep c token next (c.instruction token next) := by
  unfold instruction
  cases htyp : token.typ with
  | number | string | symbol => exact .other (by rw [htyp]; decide)
  | identifier =>
    dsimp only
    cases hop : OpCode.attribute? (PyStr.upper token.val) with
    | some op => exact .opcode op htyp hop
    | none =>
      dsimp only
      rw [if_neg (not_jump_of_attribute? hop)]
      split_ifs with hpush hstore hload
      · cases next with
        | none => exact .missing rfl
        | some arg =>
          dsimp only
          cases harg : argument arg with
          | error e => exact .notConverted arg e rfl harg
          | ok val => exact .push arg val htyp hpush rfl harg
      · cases next with
        | none => exact .missing rfl
        | some arg => exact .store arg htyp hstore rfl
      · cases next with
        | none => exact .missing rfl
        | some arg => exact .load arg htyp hload rfl
      · exact .unknown htyp hop ⟨hpush, hstore, hload⟩

/-- A token that names an opcode stands for it alone. -/
theorem generate_opcode {c : Compiler} {val : PyStr} {op : OpCode} {rest : List Token}
    (hop : OpCode.attribute? (PyStr.upper val) = some op) (h : NoColon rest) :
    c.generate (⟨.identifier, val⟩ :: rest) = (c.emit op).generate rest := by
  rw [generate_cons h]
  simp only [instruction, hop]

theorem generate_unknown {c : Compiler} {val : PyStr} {rest : List Token}
    (hop : OpCode.attribute? (PyStr.upper val) = none)
    (hval : (Statement.jump true val).Harmless) (h : NoColon rest) :
    c.generate (⟨.identifier, val⟩ :: rest) =
      ({ c with unknown := c.unknown ++ [val] } : Compiler).generate rest := by
  obtain ⟨hpush, hstore, hload⟩ := hval
  rw [generate_cons h]
  simp only [instruction, hop, if_neg hpush, if_neg hstore, if_neg hload,
    if_neg (not_jump_of_attribute? hop)]

theorem noColon_cons {token : Token} (h : token.val ≠ PyStr.lit ":") (rest : List Token) :
    NoColon (token :: rest) := by
  intro t ht
  obtain rfl := Option.some.inj ht
  exact h

theorem identifier_ne_colon {x : PyStr} (hx : PyStr.Identifier x) : x ≠ PyStr.lit ":" := by
  intro he
  have := (PyStr.identifier_wordChars hx).2 (.scalar ':') (by rw [he]; decide)
  rw [isWordChar_colon] at this
  cases this

theorem noColon_identifier {x : PyStr} (hx : PyStr.Identifier x) (typ : TokenType)
    (rest : List Token) : NoColon (⟨typ, x⟩ :: rest) := noColon_cons (identifier_ne_colon hx) rest

/-- A mnemonic is a token of its own. -/
theorem mnemonic_tokens {mnemonic w : PyStr} (hw : SpellsMnemonic mnemonic w) (hne : mnemonic ≠ [])
    (ws : List PyStr) :
    (w :: ws).flatMap partTokens = ⟨.identifier, w⟩ :: ws.flatMap partTokens := by
  rw [List.flatMap_cons, partTokens_identifier (identifier_of_mnemonic hw hne)]
  rfl

/-- The tokens of a statement begin with a word. -/
theorem spells_tokens {s : Statement} {words : List PyStr} (h : Spells s words) :
    ∃ x tokens, PyStr.Identifier x ∧ words.flatMap partTokens = ⟨.identifier, x⟩ :: tokens := by
  have hmnemonic : ∀ {mnemonic w : PyStr} {ws : List PyStr}, SpellsMnemonic mnemonic w →
      mnemonic ≠ [] → ∃ x tokens, PyStr.Identifier x ∧
        (w :: ws).flatMap partTokens = ⟨.identifier, x⟩ :: tokens := by
    intro mnemonic w ws hw hne
    exact ⟨w, ws.flatMap partTokens, identifier_of_mnemonic hw hne, mnemonic_tokens hw hne ws⟩
  cases h with
  | push hw _ => exact hmnemonic hw (by decide)
  | store hw _ => exact hmnemonic hw (by decide)
  | load hw _ => exact hmnemonic hw (by decide)
  | @plain i op w _ hw => exact hmnemonic hw (by cases op <;> decide)
  | label hl => exact ⟨_, _, hl, by rw [List.flatMap_cons, partTokens_label]; rfl⟩
  | jump hw _ => exact hmnemonic hw (by decide)
  | jumpIfFalse hw _ => exact hmnemonic hw (by decide)

/-- An instruction with an operand takes the token after it along. -/
theorem generate_operand {c c' : Compiler} {token operand : Token} {rest : List Token}
    (hcolon : operand.val ≠ PyStr.lit ":")
    (hi : c.instruction token (some operand) = .ok (true, c')) :
    c.generate (token :: operand :: rest) = c'.generate rest := by
  rw [generate_cons (noColon_cons hcolon rest), List.head?_cons, hi]
  rfl

/-- The token after a jump is walked over on its own. -/
theorem generate_jump {c : Compiler} {conditional : Bool} {target w : PyStr} {rest : List Token}
    (hw : PyStr.upper w = (if conditional then OpCode.jmpIfFalse else OpCode.jmp).name)
    (hl : PyStr.Identifier target) (hs : (Statement.jump conditional target).Harmless)
    (hrest : NoColon rest) :
    c.generate (⟨.identifier, w⟩ :: ⟨.identifier, target⟩ :: rest) =
      (c.assemble (.jump conditional target)).generate rest := by
  have hop : OpCode.attribute? (PyStr.upper w) =
      some (if conditional then OpCode.jmpIfFalse else OpCode.jmp) := by
    rw [hw, OpCode.attribute?_name]
  rw [generate_opcode hop (noColon_identifier hl _ rest), assemble]
  cases htarget : OpCode.attribute? (PyStr.upper target) with
  | some op => rw [generate_opcode htarget hrest]
  | none => rw [generate_unknown htarget hs hrest]

/-- The walk over the tokens of one statement. -/
theorem generate_statement {c : Compiler} {s : Statement} {words : List PyStr}
    (h : Spells s words) (hs : s.Harmless) {rest : List Token} (hrest : NoColon rest) :
    c.generate (words.flatMap partTokens ++ rest) = (c.assemble s).generate rest := by
  have hpush : OpCode.attribute? (PyStr.lit "PUSH") = none := by decide
  have hstore : OpCode.attribute? (PyStr.lit "STORE") = none := by decide
  have hload : OpCode.attribute? (PyStr.lit "LOAD") = none := by decide
  cases h with
  | @push val w arg hw harg =>
    obtain ⟨token, htoken, hne, hval⟩ := partTokens_literal harg
    rw [mnemonic_tokens hw (by decide), List.flatMap_singleton, htoken]
    refine generate_operand hne ?_
    simp only [instruction, hw.2, hpush, if_true, hval, Except.map]
    rfl
  | @store x w hw hx =>
    rw [mnemonic_tokens hw (by decide), List.flatMap_singleton, partTokens_identifier hx]
    refine generate_operand (identifier_ne_colon hx) ?_
    have hother : PyStr.lit "STORE" ≠ PyStr.lit "PUSH" := by decide
    simp only [instruction, hw.2, hstore, if_neg hother, if_true]
    rfl
  | @load x w hw hx =>
    rw [mnemonic_tokens hw (by decide), List.flatMap_singleton, partTokens_identifier hx]
    refine generate_operand (identifier_ne_colon hx) ?_
    have hother : PyStr.lit "LOAD" ≠ PyStr.lit "PUSH" := by decide
    have hother' : PyStr.lit "LOAD" ≠ PyStr.lit "STORE" := by decide
    simp only [instruction, hw.2, hload, if_neg hother, if_neg hother', if_true]
    rfl
  | @plain i op w hi hw =>
    have hop : OpCode.attribute? (PyStr.upper w) = some op := by rw [hw.2, OpCode.attribute?_name]
    rw [mnemonic_tokens hw (by cases op <;> decide)]
    refine (generate_opcode hop hrest).trans ?_
    cases i <;> cases hi <;> rfl
  | @label l hl =>
    rw [List.flatMap_singleton, partTokens_label, List.cons_append, List.singleton_append, generate,
      if_pos rfl]
    rfl
  | @jump target w hw hl =>
    rw [mnemonic_tokens hw (by decide), List.flatMap_singleton, partTokens_identifier hl]
    exact generate_jump hw.2 hl hs hrest
  | @jumpIfFalse target w hw hl =>
    rw [mnemonic_tokens hw (by decide), List.flatMap_singleton, partTokens_identifier hl]
    exact generate_jump hw.2 hl hs hrest

/-- The walk over the tokens of a program. -/
theorem generate_program {program : List Statement} {words : List (List PyStr)}
    (h : List.Forall₂ Spells program words) (hp : ∀ s ∈ program, s.Harmless) (c : Compiler) :
    c.generate (words.flatMap fun ws => ws.flatMap partTokens) =
      .ok (program.foldl assemble c) := by
  induction h generalizing c with
  | nil => rfl
  | @cons s ws program words hs hrest ih =>
    have hnext : NoColon (words.flatMap fun ws => ws.flatMap partTokens) := by
      cases hrest with
      | nil => nofun
      | cons hs' _ =>
        obtain ⟨x, tokens, hx, htokens⟩ := spells_tokens hs'
        rw [List.flatMap_cons, htokens]
        exact noColon_identifier hx _ _
    rw [List.flatMap_cons, generate_statement hs (hp s List.mem_cons_self) hnext,
      ih (fun s' hs' => hp s' (List.mem_cons_of_mem _ hs'))]
    rfl

/-- The operand is its big-endian encoding. -/
theorem operand_bytes (arg : Nat) :
    [UInt8.ofNat (arg >>> 8 &&& 0xFF), UInt8.ofNat (arg &&& 0xFF)] = toBytes 2 arg := by
  have hand : ∀ x : Nat, UInt8.ofNat (x &&& 0xFF) = UInt8.ofNat x := fun x => by
    apply UInt8.toNat_inj.mp
    rw [UInt8.toNat_ofNat', UInt8.toNat_ofNat', show 0xFF = 2 ^ 8 - 1 from rfl,
      Nat.and_two_pow_sub_one_eq_mod]
    omega
  rw [hand, hand, Nat.shiftRight_eq_div_pow]
  rfl

theorem emitArg_eq (c : Compiler) (arg : Nat) :
    c.emitArg arg = { c with code := c.code ++ toBytes 2 arg } := by
  rw [emitArg, operand_bytes]

theorem emitConst_eq (c : Compiler) (val : Literal) :
    c.emitConst val =
      { c with
        consts := (intern c.consts val).1
        code := c.code ++ OpCode.loadConst.byte ::
          toBytes 2 (poolIndex (intern c.consts val).1 val) } := by
  rw [← intern_snd, emitConst, addConst]
  simp only [emitArg_eq, emit, List.append_assoc, List.singleton_append]

theorem emitName_eq (c : Compiler) (op : OpCode) (name : PyStr) :
    c.emitName op name =
      { c with
        names := (intern c.names name).1
        code := c.code ++ op.byte :: toBytes 2 (poolIndex (intern c.names name).1 name) } := by
  rw [← intern_snd, emitName, addName]
  simp only [emitArg_eq, emit, List.append_assoc, List.singleton_append]

/-- A jump emits its opcode and what its target reads as. -/
theorem assemble_jump (c : Compiler) (conditional : Bool) (target : PyStr) :
    ∃ unknown, c.assemble (.jump conditional target) =
      { c with
        code := c.code ++ (if conditional then OpCode.jmpIfFalse else OpCode.jmp).byte ::
          targetCode target
        unknown := unknown } := by
  rw [assemble, targetCode]
  cases OpCode.attribute? (PyStr.upper target) with
  | none => exact ⟨_, rfl⟩
  | some op => exact ⟨c.unknown, by simp only [emit, List.append_assoc, List.singleton_append]⟩

theorem assemble_consts (c : Compiler) (s : Statement) :
    (c.assemble s).consts = internAll c.consts s.literals := by
  cases s with
  | instr i => cases i <;> simp only [assemble, emitConst_eq, emitName_eq] <;> rfl
  | jump conditional target =>
    obtain ⟨unknown, h⟩ := assemble_jump c conditional target
    rw [h]
    rfl

theorem assemble_names (c : Compiler) (s : Statement) :
    (c.assemble s).names = internAll c.names s.names := by
  cases s with
  | instr i => cases i <;> simp only [assemble, emitConst_eq, emitName_eq] <;> rfl
  | jump conditional target =>
    obtain ⟨unknown, h⟩ := assemble_jump c conditional target
    rw [h]
    rfl

theorem assemble_jumpsToFix (c : Compiler) (s : Statement) :
    (c.assemble s).jumpsToFix = c.jumpsToFix := by
  cases s with
  | instr i => cases i <;> simp only [assemble, emitConst_eq, emitName_eq] <;> rfl
  | jump conditional target =>
    obtain ⟨unknown, h⟩ := assemble_jump c conditional target
    rw [h]

/-- The code of a statement, read off any later pools. -/
theorem assemble_code (c : Compiler) (s : Statement) {consts : List Literal} {names : List PyStr}
    (hconsts : (c.assemble s).consts <+: consts) (hnames : (c.assemble s).names <+: names) :
    (c.assemble s).code = c.code ++ encode consts names s := by
  rw [assemble_consts] at hconsts
  rw [assemble_names] at hnames
  cases s with
  | jump conditional target =>
    obtain ⟨unknown, h⟩ := assemble_jump c conditional target
    rw [h]
    rfl
  | instr i =>
    cases i with
    | push val =>
      have hidx := poolIndex_of_prefix hconsts (mem_intern.mpr (Or.inr rfl))
      rw [encode, hidx, assemble, emitConst_eq]
      rfl
    | store x =>
      have hidx := poolIndex_of_prefix hnames (mem_intern.mpr (Or.inr rfl))
      rw [encode, hidx, assemble, emitName_eq]
      rfl
    | load x =>
      have hidx := poolIndex_of_prefix hnames (mem_intern.mpr (Or.inr rfl))
      rw [encode, hidx, assemble, emitName_eq]
      rfl
    | label l => exact (List.append_nil _).symm
    | add | sub | mul | eq | print | halt => rfl

theorem foldl_consts (program : List Statement) (c : Compiler) :
    (program.foldl assemble c).consts =
      internAll c.consts (program.flatMap Statement.literals) := by
  induction program generalizing c with
  | nil => rfl
  | cons s program ih =>
    rw [List.foldl_cons, ih, assemble_consts, List.flatMap_cons, internAll_append]

theorem foldl_names (program : List Statement) (c : Compiler) :
    (program.foldl assemble c).names = internAll c.names (program.flatMap Statement.names) := by
  induction program generalizing c with
  | nil => rfl
  | cons s program ih =>
    rw [List.foldl_cons, ih, assemble_names, List.flatMap_cons, internAll_append]

theorem foldl_jumpsToFix (program : List Statement) (c : Compiler) :
    (program.foldl assemble c).jumpsToFix = c.jumpsToFix := by
  induction program generalizing c with
  | nil => rfl
  | cons s program ih => rw [List.foldl_cons, ih, assemble_jumpsToFix]

theorem foldl_code (program : List Statement) (c : Compiler) {consts : List Literal}
    {names : List PyStr} (hconsts : (program.foldl assemble c).consts <+: consts)
    (hnames : (program.foldl assemble c).names <+: names) :
    (program.foldl assemble c).code = c.code ++ program.flatMap (encode consts names) := by
  induction program generalizing c with
  | nil => rw [List.flatMap_nil, List.append_nil, List.foldl_nil]
  | cons s program ih =>
    rw [List.foldl_cons] at hconsts hnames ⊢
    have hearlyConsts : (c.assemble s).consts <+: consts := by
      rw [foldl_consts] at hconsts
      exact (prefix_internAll _ _).trans hconsts
    have hearlyNames : (c.assemble s).names <+: names := by
      rw [foldl_names] at hnames
      exact (prefix_internAll _ _).trans hnames
    rw [ih (c.assemble s) hconsts hnames, assemble_code c s hearlyConsts hearlyNames,
      List.append_assoc, List.flatMap_cons]

end Compiler

/-- The constant pool of a program. -/
def constPool (program : List Statement) : List Literal :=
  internAll [] (program.flatMap Statement.literals)

/-- The name pool of a program. -/
def namePool (program : List Statement) : List PyStr :=
  internAll [] (program.flatMap Statement.names)

/-- The code of the statements in order, over the pools of the program. -/
def compiledCode (program : List Statement) : CodeObject :=
  ⟨program.flatMap (encode (constPool program) (namePool program)), constPool program,
    namePool program⟩

/-- Compiling a rendered program succeeds with the code of its statements in order. -/
theorem compile_renders {source : PyStr} {program : List Statement}
    (h : Renders source program) (hp : ∀ s ∈ program, s.Harmless) :
    Compiler.init.compile source = .ok (compiledCode program) := by
  obtain ⟨words, hspells, htokens⟩ := tokenize_renders h
  have hconsts := Compiler.foldl_consts program Compiler.init
  have hnames := Compiler.foldl_names program Compiler.init
  have hjumps := Compiler.foldl_jumpsToFix program Compiler.init
  have hcode := Compiler.foldl_code program Compiler.init (List.prefix_refl _) (List.prefix_refl _)
  rw [hconsts, hnames] at hcode
  rw [Compiler.compile, htokens, Compiler.generate_program hspells hp]
  dsimp only
  rw [hjumps, hconsts, hnames, hcode]
  rfl

end PythonPortfolio.Ouroboros
