import PythonPortfolio.Library.Regex

/-!
# The GQL lexer

`Lexer.tokenize` tries its patterns in order at each position that is not blank. The
text is walked by what is left of it, with the character before; the source advances
an index. Where a character class is folded by `re.IGNORECASE`, the characters beyond
ASCII that it then takes are listed. The value of a float is kept as its text.
-/

namespace PythonPortfolio.Nebula

open Library

inductive TokenType where
  | keyword
  | identifier
  | symbol
  | string
  | number
  | eof
deriving DecidableEq

inductive TokenValue where
  | str (s : PyStr)
  | int (n : Nat)
  | float (text : PyStr)
deriving DecidableEq

structure Token where
  type : TokenType
  value : TokenValue
  position : Int
deriving DecidableEq

/-- What a `SyntaxError` says. -/
inductive Complaint where
  /-- `Illegal character at position {pos}: {text[pos]}` -/
  | illegalCharacter (pos : Nat) (c : PyChar)
  /-- `Query must start with MATCH` -/
  | mustStartWithMatch
  /-- `Query must have RETURN clause` -/
  | mustHaveReturn
  /-- `Expected literal value` -/
  | expectedLiteral
  /-- `Expected {type_}:{val}, got {self._current()}` -/
  | expected (type : TokenType) (val : Option PyStr) (got : Token)
deriving DecidableEq

inductive QueryError where
  | syntaxError (complaint : Complaint)
  | attributeError
  | valueError
deriving DecidableEq

namespace Lexer

def digit (c : PyChar) : Bool := c.decimal.isSome

def nameStart (c : PyChar) : Bool := c.isLetter || c ∈ PyChar.folded

def nameChar (c : PyChar) : Bool := c.isWordChar || c ∈ PyChar.folded

def quoted (quote : Char) : Regex :=
  .seq (.char (· = .scalar quote)) (.seq (.star (· ≠ .scalar quote)) (.char (· = .scalar quote)))

def symbols : PyStr := PyStr.lit "():.=->[]\x7b\x7d"

def keywords : List (List Char) :=
  ["MATCH".toList, "WHERE".toList, "RETURN".toList, "AND".toList, "OR".toList]

def keywordPattern : Regex := .seq .boundary (.seq (.anyWord keywords) .boundary)

def numberPattern : Regex :=
  .seq .boundary (.seq (.plus digit) (.seq (.opt (· = .scalar '.')) (.seq (.star digit) .boundary)))

def stringPattern : Regex := .alt (quoted '\'') (quoted '"')

def identifierPattern : Regex :=
  .seq .boundary (.seq (.char nameStart) (.seq (.star nameChar) .boundary))

def symbolPattern : Regex := .char (· ∈ symbols)

/-- `PATTERNS`. -/
def patterns : List (TokenType × Regex) :=
  [(.keyword, keywordPattern), (.number, numberPattern), (.string, stringPattern),
    (.identifier, identifierPattern), (.symbol, symbolPattern), (.eof, .atEnd)]

variable (W : WordChars)

/-- The first pattern that matches: the token's type, its text and what follows. -/
def firstMatch (prev : Option PyChar) (s : PyStr) : Option (TokenType × PyStr × PyStr) :=
  patterns.findSome? fun p => (p.2.match? W prev s).map fun m => (p.1, m)

/-- Quotes are taken off, numbers converted. -/
def tokenValue (type : TokenType) (val : PyStr) : Except QueryError TokenValue :=
  match type with
  | .string => .ok (.str val.tail.dropLast)
  | .number =>
    if PyChar.scalar '.' ∈ val then .ok (.float val)
    else match PyStr.int? val with
      | some n => .ok (.int n)
      | none => .error .valueError
  | _ => .ok (.str val)

/-- The loop of `tokenize` at position `pos`, where `s` is left of the text; `none` when
the fuel does not suffice. -/
def tokenizeFrom : Nat → Option PyChar → Nat → PyStr → Option (Except QueryError (List Token))
  | _, _, _, [] => some (.ok [])
  | 0, _, _, _ :: _ => none
  | fuel + 1, prev, pos, c :: s =>
    if c.isSpace then tokenizeFrom fuel (some c) (pos + 1) s
    else
      match firstMatch W prev (c :: s) with
      | none => some (.error (.syntaxError (.illegalCharacter pos c)))
      | some (type, val, rest) =>
        match tokenValue type val with
        | .error e => some (.error e)
        | .ok value =>
          (tokenizeFrom fuel (Regex.last prev val) (pos + val.length) rest).map fun tokens =>
            tokens.map (⟨type, value, pos⟩ :: ·)

def tokenize (text : PyStr) : Option (Except QueryError (List Token)) :=
  tokenizeFrom W text.length none 0 text

end Lexer

end PythonPortfolio.Nebula
