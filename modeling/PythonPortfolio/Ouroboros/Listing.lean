import PythonPortfolio.Ouroboros.Decode

/-!
# The listing of a source

What the compiler makes of a list of tokens, symbolically: the opcodes it emits, and the
constants and names that the operands stand for. The code object is this listing encoded
over its own pools; the compiler raises where a listing breaks off. A string constant of a
listing is a word of the source, so it has no blank and no comment sign in it.
-/

namespace PythonPortfolio.Ouroboros

open Library Library.BigEndian

inductive Item where
  | mnemonic (op : OpCode)
  | const (val : Literal)
  | name (op : OpCode) (x : PyStr)
deriving DecidableEq

namespace Item

def size : Item → Nat
  | .mnemonic _ => 1
  | .const _ | .name _ _ => 3

def literals : Item → List Literal
  | .const val => [val]
  | _ => []

def names : Item → List PyStr
  | .name _ x => [x]
  | _ => []

def encode (consts : List Literal) (names : List PyStr) : Item → Bytes
  | .mnemonic op => [op.byte]
  | .const val => OpCode.loadConst.byte :: toBytes 2 (poolIndex consts val)
  | .name op x => op.byte :: toBytes 2 (poolIndex names x)

end Item

/-- The constant pool of a listing. -/
def constsOf (items : List Item) : List Literal := internAll [] (items.flatMap Item.literals)

/-- The name pool of a listing. -/
def namesOf (items : List Item) : List PyStr := internAll [] (items.flatMap Item.names)

def codeObject (items : List Item) : CodeObject :=
  ⟨items.flatMap (Item.encode (constsOf items) (namesOf items)), constsOf items, namesOf items⟩

/-- The item behind `PUSH`, `STORE` or `LOAD`. -/
def operandItem (op : OpCode) (arg : Token) : Except CompileError Item :=
  if op = .loadConst then (Compiler.argument arg).map .const else .ok (.name op arg.val)

/-- What a token in the place of an instruction adds, and whether it takes the next token. -/
def listed (token : Token) (next : Option Token) : Except CompileError (Bool × List Item) :=
  match piece? token, next with
  | none, _ => .ok (false, [])
  | some (.mnemonic op), _ => .ok (false, [.mnemonic op])
  | some (.operand _), none => .error .indexError
  | some (.operand op), some arg => (operandItem op arg).map fun item => (true, [item])

def listing : List Token → Except CompileError (List Item)
  | [] => .ok []
  | [token] => (listed token none).map Prod.snd
  | token :: next :: rest =>
    if next.val = PyStr.lit ":" then listing rest
    else
      match listed token (some next) with
      | .error e => .error e
      | .ok (true, items) => (listing rest).map (items ++ ·)
      | .ok (false, items) => (listing (next :: rest)).map (items ++ ·)

/-! ## The compiler assembles the listing -/

namespace Compiler

/-- The compiler has written the items. -/
structure Writes (c c' : Compiler) (items : List Item) : Prop where
  jumpsToFix : c'.jumpsToFix = c.jumpsToFix
  consts : c'.consts = internAll c.consts (items.flatMap Item.literals)
  names : c'.names = internAll c.names (items.flatMap Item.names)
  code : ∀ consts names, c'.consts <+: consts → c'.names <+: names →
    c'.code = c.code ++ items.flatMap (Item.encode consts names)

theorem writes_nothing {c c' : Compiler} (hjumps : c'.jumpsToFix = c.jumpsToFix)
    (hconsts : c'.consts = c.consts) (hnames : c'.names = c.names) (hcode : c'.code = c.code) :
    Writes c c' [] :=
  ⟨hjumps, hconsts, hnames, fun _ _ _ _ => hcode.trans (List.append_nil _).symm⟩

theorem Writes.trans {c c' c'' : Compiler} {items items' : List Item} (h : Writes c c' items)
    (h' : Writes c' c'' items') : Writes c c'' (items ++ items') := by
  refine ⟨h'.jumpsToFix.trans h.jumpsToFix, ?_, ?_, fun consts names hconsts hnames => ?_⟩
  · rw [h'.consts, h.consts, List.flatMap_append, internAll_append]
  · rw [h'.names, h.names, List.flatMap_append, internAll_append]
  · have hconsts' : c'.consts <+: consts := by
      rw [h'.consts] at hconsts
      exact (prefix_internAll _ _).trans hconsts
    have hnames' : c'.names <+: names := by
      rw [h'.names] at hnames
      exact (prefix_internAll _ _).trans hnames
    rw [h'.code consts names hconsts hnames, h.code consts names hconsts' hnames',
      List.flatMap_append, List.append_assoc]

theorem writes_emit (c : Compiler) (op : OpCode) : Writes c (c.emit op) [.mnemonic op] :=
  ⟨rfl, rfl, rfl, fun _ _ _ _ => rfl⟩

theorem writes_emitConst (c : Compiler) (val : Literal) :
    Writes c (c.emitConst val) [.const val] := by
  rw [emitConst_eq]
  refine ⟨rfl, rfl, rfl, fun consts names hconsts _ => ?_⟩
  have hidx := poolIndex_of_prefix hconsts (mem_intern.mpr (Or.inr rfl))
  rw [List.flatMap_singleton, Item.encode, hidx]

theorem writes_emitName (c : Compiler) (op : OpCode) (x : PyStr) :
    Writes c (c.emitName op x) [.name op x] := by
  rw [emitName_eq]
  refine ⟨rfl, rfl, rfl, fun consts names _ hnames => ?_⟩
  have hidx := poolIndex_of_prefix hnames (mem_intern.mpr (Or.inr rfl))
  rw [List.flatMap_singleton, Item.encode, hidx]

/-- One token is compiled to what it is listed as. -/
theorem instruction_listed (c : Compiler) (token : Token) (next : Option Token) :
    (∃ e, listed token next = .error e ∧ c.instruction token next = .error e) ∨
      ∃ consumed items c', listed token next = .ok (consumed, items) ∧
        c.instruction token next = .ok (consumed, c') ∧ Writes c c' items := by
  unfold listed piece? instruction
  cases htyp : token.typ with
  | number | string | symbol =>
    exact Or.inr ⟨false, [], c, rfl, rfl, writes_nothing rfl rfl rfl rfl⟩
  | identifier =>
    rw [if_pos rfl]
    dsimp only
    cases hop : OpCode.attribute? (PyStr.upper token.val) with
    | some op => exact Or.inr ⟨false, [.mnemonic op], c.emit op, rfl, rfl, writes_emit c op⟩
    | none =>
      dsimp only
      rw [if_neg (not_jump_of_attribute? hop)]
      split_ifs with hpush hstore hload
      · cases next with
        | none => exact Or.inl ⟨_, rfl, rfl⟩
        | some arg =>
          simp only [operandItem, if_true]
          cases argument arg with
          | error e => exact Or.inl ⟨e, rfl, rfl⟩
          | ok val => exact Or.inr ⟨true, [.const val], _, rfl, rfl, writes_emitConst c val⟩
      · cases next with
        | none => exact Or.inl ⟨_, rfl, rfl⟩
        | some arg =>
          exact Or.inr ⟨true, [.name .storeName arg.val], _, rfl, rfl, writes_emitName c _ _⟩
      · cases next with
        | none => exact Or.inl ⟨_, rfl, rfl⟩
        | some arg =>
          exact Or.inr ⟨true, [.name .loadName arg.val], _, rfl, rfl, writes_emitName c _ _⟩
      · exact Or.inr ⟨false, [], _, rfl, rfl, writes_nothing rfl rfl rfl rfl⟩

theorem instruction_ok {c c' : Compiler} {token : Token} {next : Option Token} {consumed : Bool}
    (h : c.instruction token next = .ok (consumed, c')) :
    ∃ items, listed token next = .ok (consumed, items) ∧ Writes c c' items := by
  rcases instruction_listed c token next with ⟨e, _, herr⟩ | ⟨_, items, _, hl, hok, hw⟩
  · rw [h] at herr
    cases herr
  · rw [h] at hok
    cases hok
    exact ⟨items, hl, hw⟩

theorem instruction_error {c : Compiler} {token : Token} {next : Option Token} {e : CompileError}
    (h : c.instruction token next = .error e) : listed token next = .error e := by
  rcases instruction_listed c token next with ⟨e', hl, herr⟩ | ⟨_, _, _, _, hok, _⟩
  · rw [h] at herr
    cases herr
    exact hl
  · rw [h] at hok
    cases hok

/-- From `c` on, `g` is what writing the listing `r` gives. -/
def Agrees (c : Compiler) (r : Except CompileError (List Item)) (g : Except CompileError Compiler) :
    Prop :=
  (∃ e, r = .error e ∧ g = .error e) ∨ ∃ items c', r = .ok items ∧ g = .ok c' ∧ Writes c c' items

/-- More items in front. -/
theorem Agrees.after {c c₁ : Compiler} {items : List Item} {r : Except CompileError (List Item)}
    {g : Except CompileError Compiler} (h : Agrees c₁ r g) (hw : Writes c c₁ items) :
    Agrees c (r.map (items ++ ·)) g := by
  rcases h with ⟨e, rfl, hg⟩ | ⟨items', c', rfl, hg, hw'⟩
  · exact Or.inl ⟨e, rfl, hg⟩
  · exact Or.inr ⟨items ++ items', c', rfl, hg, hw.trans hw'⟩

/-- The walk writes the listing of the tokens, or raises where that breaks off. -/
theorem generate_listing (c : Compiler) (tokens : List Token) :
    Agrees c (listing tokens) (c.generate tokens) := by
  fun_induction Compiler.generate c tokens with
  | case1 c => exact Or.inr ⟨[], c, rfl, rfl, writes_nothing rfl rfl rfl rfl⟩
  | case2 c token =>
    cases hi : c.instruction token none with
    | error e => exact Or.inl ⟨e, by rw [listing, instruction_error hi]; rfl, rfl⟩
    | ok r =>
      obtain ⟨items, hl, hw⟩ := instruction_ok hi
      exact Or.inr ⟨items, r.2, by rw [listing, hl]; rfl, rfl, hw⟩
  | case3 c token next rest hcolon ih =>
    rw [listing, if_pos hcolon]
    rcases ih with ⟨e, hl, hg⟩ | ⟨items, c', hl, hg, hw⟩
    · exact Or.inl ⟨e, hl, hg⟩
    -- the label is no part of the code object
    · exact Or.inr ⟨items, c', hl, hg, hw.jumpsToFix, hw.consts, hw.names, hw.code⟩
  | case4 c token next rest hcolon e hi =>
    rw [listing, if_neg hcolon, instruction_error hi]
    exact Or.inl ⟨e, rfl, rfl⟩
  | case5 c token next rest hcolon c₁ hi ih | case6 c token next rest hcolon c₁ hi ih =>
    obtain ⟨items, hl, hw⟩ := instruction_ok hi
    rw [listing, if_neg hcolon, hl]
    exact ih.after hw

/-- Compiling is listing the tokens and encoding the items over their pools. -/
theorem compile_eq (source : PyStr) :
    Compiler.init.compile source = (listing (tokenize source)).map codeObject := by
  unfold compile
  rcases generate_listing Compiler.init (tokenize source) with ⟨e, hl, hg⟩ | ⟨items, c, hl, hg, hw⟩
  · rw [hl, hg]
    rfl
  · have hjumps : c.jumpsToFix = [] := hw.jumpsToFix
    have hconsts : c.consts = constsOf items := hw.consts
    have hnames : c.names = namesOf items := hw.names
    have hcode := hw.code c.consts c.names (List.prefix_refl _) (List.prefix_refl _)
    rw [hl, hg]
    dsimp only
    rw [hjumps, hcode, hconsts, hnames]
    rfl

end Compiler

/-! ## Listings side by side -/

open Compiler (NoColon)

theorem listed_none {token : Token} {consumed : Bool} {items : List Item}
    (h : listed token none = .ok (consumed, items)) (next : Option Token) :
    consumed = false ∧ listed token next = .ok (false, items) := by
  unfold listed at h ⊢
  cases hp : piece? token with
  | none =>
    rw [hp] at h
    cases h
    exact ⟨rfl, rfl⟩
  | some p =>
    rw [hp] at h
    cases p with
    | mnemonic op =>
      cases h
      exact ⟨rfl, rfl⟩
    | operand op => cases h

theorem listing_cons {token : Token} {rest : List Token} (h : NoColon rest) {items : List Item}
    (hl : listed token rest.head? = .ok (false, items)) :
    listing (token :: rest) = (listing rest).map (items ++ ·) := by
  cases rest with
  | nil =>
    show (listed token none).map Prod.snd = _
    rw [show listed token none = _ from hl]
    exact congrArg Except.ok (List.append_nil items).symm
  | cons next rest =>
    rw [listing, if_neg (h next rfl), show listed token (some next) = _ from hl]

theorem map_ok {α β : Type} {r : Except CompileError α} {f : α → β} {z : β} :
    r.map f = .ok z ↔ ∃ y, r = .ok y ∧ f y = z := by
  cases r with
  | error e =>
    constructor
    · intro h
      cases h
    · rintro ⟨y, h, -⟩
      cases h
  | ok y =>
    constructor
    · exact fun h => ⟨y, rfl, Except.ok.inj h⟩
    · rintro ⟨y', h, rfl⟩
      cases h
      rfl

theorem map_map_append (r : Except CompileError (List Item)) (items items' : List Item) :
    (r.map (items' ++ ·)).map (items ++ ·) = r.map (items ++ items' ++ ·) := by
  cases r with
  | error e => rfl
  | ok l => exact congrArg Except.ok (List.append_assoc items items' l).symm

/-- A listing that does not break off goes on with what follows. -/
theorem listing_append {tokens rest : List Token} {items : List Item}
    (h : listing tokens = .ok items) (hrest : NoColon rest) :
    listing (tokens ++ rest) = (listing rest).map (items ++ ·) := by
  fun_induction listing tokens generalizing items with
  | case1 =>
    cases h
    rw [List.nil_append]
    cases listing rest <;> rfl
  | case2 token =>
    obtain ⟨r, hl, rfl⟩ := map_ok.mp h
    exact listing_cons hrest (listed_none hl _).2
  | case3 token next tokens hcolon ih =>
    rw [List.cons_append, List.cons_append, listing, if_pos hcolon]
    exact ih h
  | case4 token next tokens hcolon e hl => cases h
  | case5 token next tokens hcolon items₁ hl ih =>
    rw [List.cons_append, List.cons_append, listing, if_neg hcolon, hl]
    obtain ⟨items₂, htail, rfl⟩ := map_ok.mp h
    rw [ih htail]
    exact map_map_append _ _ _
  | case6 token next tokens hcolon items₁ hl ih =>
    rw [List.cons_append, List.cons_append, listing, if_neg hcolon, hl]
    obtain ⟨items₂, htail, rfl⟩ := map_ok.mp h
    rw [← List.cons_append, ih htail]
    exact map_map_append _ _ _

/-! ## Whole instructions -/

/-- The tokens are labels, instructions with their operands, and words without one. -/
inductive Whole : List Token → Prop
  | nil : Whole []
  | label {token colon : Token} {rest : List Token} (hcolon : colon.val = PyStr.lit ":")
      (h : Whole rest) : Whole (token :: colon :: rest)
  | operand {token arg : Token} {rest : List Token} {op : OpCode}
      (hop : piece? token = some (.operand op)) (hcolon : arg.val ≠ PyStr.lit ":")
      (harg : op = .loadConst → ∃ val, Compiler.argument arg = .ok val) (h : Whole rest) :
      Whole (token :: arg :: rest)
  | alone {token : Token} {rest : List Token} (hop : ∀ op, piece? token ≠ some (.operand op))
      (hcolon : NoColon rest) (h : Whole rest) : Whole (token :: rest)

/-- What one token is listed as. -/
theorem listed_cases {token : Token} {next : Option Token} {consumed : Bool} {items : List Item}
    (h : listed token next = .ok (consumed, items)) :
    (consumed = false ∧ (∀ op, piece? token ≠ some (.operand op)) ∧
      (items = [] ∨ ∃ op, items = [.mnemonic op])) ∨
    consumed = true ∧ ∃ op arg item, piece? token = some (.operand op) ∧ next = some arg ∧
      operandItem op arg = .ok item ∧ items = [item] := by
  unfold listed at h
  cases hp : piece? token with
  | none =>
    rw [hp] at h
    cases h
    exact Or.inl ⟨rfl, nofun, Or.inl rfl⟩
  | some p =>
    rw [hp] at h
    cases p with
    | mnemonic op =>
      cases h
      exact Or.inl ⟨rfl, nofun, Or.inr ⟨op, rfl⟩⟩
    | operand op =>
      cases next with
      | none => cases h
      | some arg =>
        obtain ⟨item, hitem, hresult⟩ := map_ok.mp h
        cases hresult
        exact Or.inr ⟨rfl, op, arg, item, rfl, rfl, hitem, rfl⟩

theorem listed_alone {token : Token} (hop : ∀ op, piece? token ≠ some (.operand op))
    (next : Option Token) : ∃ items, listed token next = .ok (false, items) := by
  unfold listed
  cases hp : piece? token with
  | none => exact ⟨[], rfl⟩
  | some p =>
    cases p with
    | mnemonic op => exact ⟨[.mnemonic op], rfl⟩
    | operand op => exact absurd hp (hop op)

theorem operandItem_ok {op : OpCode} {arg : Token}
    (harg : op = .loadConst → ∃ val, Compiler.argument arg = .ok val) :
    ∃ item, operandItem op arg = .ok item := by
  unfold operandItem
  split_ifs with hop
  · obtain ⟨val, hval⟩ := harg hop
    exact ⟨.const val, by rw [hval]; rfl⟩
  · exact ⟨_, rfl⟩

/-- Exactly whole instructions have a listing. -/
theorem whole_iff {tokens : List Token} : Whole tokens ↔ ∃ items, listing tokens = .ok items := by
  constructor
  · intro h
    induction h with
    | nil => exact ⟨[], rfl⟩
    | label hcolon _ ih =>
      rw [listing, if_pos hcolon]
      exact ih
    | @operand token arg rest op hop hcolon harg _ ih =>
      obtain ⟨item, hitem⟩ := operandItem_ok harg
      obtain ⟨items, hitems⟩ := ih
      have hl : listed token (some arg) = .ok (true, [item]) := by
        simp only [listed, hop, hitem]
        rfl
      exact ⟨item :: items, by rw [listing, if_neg hcolon, hl, hitems]; rfl⟩
    | @alone token rest hop hcolon _ ih =>
      obtain ⟨items, hl⟩ := listed_alone hop rest.head?
      obtain ⟨items', hitems⟩ := ih
      exact ⟨items ++ items', by rw [listing_cons hcolon hl, hitems]; rfl⟩
  · rintro ⟨items, h⟩
    fun_induction listing tokens generalizing items with
    | case1 => exact .nil
    | case2 token =>
      obtain ⟨r, hl, -⟩ := map_ok.mp h
      rcases listed_cases hl with ⟨-, hop, -⟩ | ⟨-, _, _, _, _, hnone, _⟩
      · exact .alone hop nofun .nil
      · cases hnone
    | case3 token next rest hcolon ih => exact .label hcolon (ih items h)
    | case4 token next rest hcolon e hl => cases h
    | case5 token next rest hcolon items₁ hl ih =>
      rcases listed_cases hl with ⟨hfalse, _⟩ | ⟨-, op, arg, item, hop, hnext, hitem, -⟩
      · cases hfalse
      · cases hnext
        obtain ⟨items₂, htail, -⟩ := map_ok.mp h
        refine .operand hop hcolon (fun he => ?_) (ih items₂ htail)
        rw [operandItem, if_pos he] at hitem
        obtain ⟨val, hval, -⟩ := map_ok.mp hitem
        exact ⟨val, hval⟩
    | case6 token next rest hcolon items₁ hl ih =>
      rcases listed_cases hl with ⟨-, hop, -⟩ | ⟨htrue, _⟩
      · obtain ⟨items₂, htail, -⟩ := map_ok.mp h
        refine .alone hop (fun t ht => ?_) (ih items₂ htail)
        cases ht
        exact hcolon
      · cases htrue

/-- Whole instructions are what compiles. -/
theorem compile_ok_iff (source : PyStr) :
    (∃ co, Compiler.init.compile source = .ok co) ↔ Whole (tokenize source) := by
  rw [whole_iff, Compiler.compile_eq]
  constructor
  · rintro ⟨co, hco⟩
    obtain ⟨items, hitems, -⟩ := map_ok.mp hco
    exact ⟨items, hitems⟩
  · rintro ⟨items, hitems⟩
    exact ⟨codeObject items, by rw [hitems]; rfl⟩

/-! ## String constants are words -/

theorem operandItem_str {op : OpCode} {arg : Token} {s : PyStr}
    (h : operandItem op arg = .ok (.const (.str s))) : arg.val = s := by
  unfold operandItem at h
  split_ifs at h with hop
  · obtain ⟨val, hval, hconst⟩ := map_ok.mp h
    cases hconst
    unfold Compiler.argument at hval
    split at hval
    · split at hval <;> cases hval
    · cases hval
      rfl
  · cases h

/-- A string constant is the text of a token, and not a colon. -/
theorem str_mem_listing {tokens : List Token} {items : List Item} {s : PyStr}
    (h : listing tokens = .ok items) (hs : .const (.str s) ∈ items) :
    s ≠ PyStr.lit ":" ∧ ∃ t ∈ tokens, t.val = s := by
  have hnext : ∀ {token : Token} {next : Option Token} {consumed : Bool} {items : List Item},
      listed token next = .ok (consumed, items) → .const (.str s) ∈ items →
        ∃ arg, next = some arg ∧ arg.val = s := by
    intro token next consumed items hl hmem
    rcases listed_cases hl with ⟨-, -, rfl | ⟨op, rfl⟩⟩ | ⟨-, op, arg, item, -, hnext, hitem, rfl⟩
    · cases hmem
    · cases List.mem_singleton.mp hmem
    · cases List.mem_singleton.mp hmem
      exact ⟨arg, hnext, operandItem_str hitem⟩
  fun_induction listing tokens generalizing items with
  | case1 =>
    cases h
    cases hs
  | case2 token =>
    obtain ⟨r, hl, rfl⟩ := map_ok.mp h
    obtain ⟨arg, hnone, _⟩ := hnext hl hs
    cases hnone
  | case3 token next rest hcolon ih =>
    obtain ⟨hne, t, ht, hval⟩ := ih h hs
    exact ⟨hne, t, List.mem_cons_of_mem _ (List.mem_cons_of_mem _ ht), hval⟩
  | case4 token next rest hcolon e hl => cases h
  | case5 token next rest hcolon items₁ hl ih =>
    obtain ⟨items₂, htail, rfl⟩ := map_ok.mp h
    rcases List.mem_append.mp hs with hs | hs
    · obtain ⟨arg, he, rfl⟩ := hnext hl hs
      cases he
      exact ⟨hcolon, next, List.mem_cons_of_mem _ List.mem_cons_self, rfl⟩
    · obtain ⟨hne, t, ht, hval⟩ := ih htail hs
      exact ⟨hne, t, List.mem_cons_of_mem _ (List.mem_cons_of_mem _ ht), hval⟩
  | case6 token next rest hcolon items₁ hl ih =>
    obtain ⟨items₂, htail, rfl⟩ := map_ok.mp h
    rcases List.mem_append.mp hs with hs | hs
    · obtain ⟨arg, he, rfl⟩ := hnext hl hs
      cases he
      exact ⟨hcolon, next, List.mem_cons_of_mem _ List.mem_cons_self, rfl⟩
    · obtain ⟨hne, t, ht, hval⟩ := ih htail hs
      exact ⟨hne, t, List.mem_cons_of_mem _ ht, hval⟩

/-- Tokens are cut out of the words of a line, in front of its comment. -/
theorem mem_token {source : PyStr} {t : Token} (ht : t ∈ tokenize source) :
    ∀ c ∈ t.val, c.isSpace = false ∧ c ≠ .scalar '#' := by
  rw [tokenize_eq] at ht
  obtain ⟨line, -, ht⟩ := List.mem_flatMap.mp ht
  obtain ⟨word, hword, ht⟩ := List.mem_flatMap.mp ht
  have hclean : ∀ c ∈ word, c.isSpace = false ∧ c ≠ .scalar '#' := by
    intro c hc
    obtain ⟨hmem, hspace⟩ := PyStr.mem_of_mem_split hword hc
    rw [PyStr.before] at hmem
    have hhash := List.mem_takeWhile_imp hmem
    exact ⟨hspace, of_decide_eq_true hhash⟩
  unfold partTokens at ht
  split_ifs at ht with hcolon hdigit hquote
  · rcases List.mem_cons.mp ht with rfl | ht
    · exact fun c hc => hclean c (List.dropLast_subset _ hc)
    · obtain rfl := List.mem_singleton.mp ht
      decide
  · obtain rfl := List.mem_singleton.mp ht
    exact hclean
  · obtain rfl := List.mem_singleton.mp ht
    exact fun c hc => hclean c (List.mem_of_mem_tail (List.dropLast_subset _ hc))
  · obtain rfl := List.mem_singleton.mp ht
    exact hclean

/-- The string constants of compiled code have no blank and no comment sign in them, and
none is a colon. -/
theorem string_const {source : PyStr} {co : CodeObject} {s : PyStr}
    (h : Compiler.init.compile source = .ok co) (hs : .str s ∈ co.coConsts) :
    (∀ c ∈ s, c.isSpace = false ∧ c ≠ .scalar '#') ∧ s ≠ PyStr.lit ":" := by
  rw [Compiler.compile_eq] at h
  obtain ⟨items, hl, rfl⟩ := map_ok.mp h
  rcases mem_internAll.mp hs with hnil | hmem
  · cases hnil
  · obtain ⟨item, hitem, hval⟩ := List.mem_flatMap.mp hmem
    cases item with
    | mnemonic op | name op x => cases hval
    | const val =>
      obtain rfl := List.mem_singleton.mp hval
      obtain ⟨hne, t, ht, rfl⟩ := str_mem_listing hl hitem
      exact ⟨mem_token ht, hne⟩

end PythonPortfolio.Ouroboros
