import PythonPortfolio.Library.Dict
import PythonPortfolio.Nebula.Lexer

/-!
# The GQL parser

`QueryParser` is a recursive descent over the tokens that are left, where the source
advances an index; past the last one it sees an `EOF` token. The grammar is stated
apart from it: a `Query` is a derivation, `terminals` the sentence it derives, and
`ast` the tree it stands for. What a parse accepts is a sentence and whatever follows.
-/

namespace PythonPortfolio.Nebula

open Library

structure MatchClause where
  varName : TokenValue
  labels : List TokenValue
  properties : Dict PyStr TokenValue
deriving DecidableEq

structure WhereClause where
  varName : TokenValue
  propertyName : TokenValue
  operator : TokenValue
  value : TokenValue
deriving DecidableEq

structure ReturnClause where
  varName : TokenValue
deriving DecidableEq

structure QueryAST where
  matchClauses : List MatchClause
  whereClause : Option WhereClause
  returnClauses : List ReturnClause
deriving DecidableEq

namespace QueryParser

/-- `_current`. -/
def current (tokens : List Token) : Token := tokens.headD ⟨.eof, .str [], -1⟩

/-- `_peek`: only a string has the method `upper`. -/
def peek (tokens : List Token) (type : TokenType) (val : Option PyStr) : Except QueryError Bool :=
  let tk := current tokens
  if tk.type ≠ type then .ok false
  else match val with
    | none | some [] => .ok true
    | some val =>
      match tk.value with
      | .str s => .ok (PyStr.upper s = PyStr.upper val)
      | _ => .error .attributeError

/-- `_match`. -/
def matchToken (tokens : List Token) (type : TokenType) (val : Option PyStr) :
    Except QueryError (Bool × List Token) := do
  if ← peek tokens type val then return (true, tokens.tail)
  else return (false, tokens)

/-- `_expect`. -/
def expect (tokens : List Token) (type : TokenType) (val : Option PyStr) :
    Except QueryError (Token × List Token) := do
  let (found, rest) ← matchToken tokens type val
  if found then return (current tokens, rest)
  else throw (.syntaxError (.expected type val (current tokens)))

def parsePattern (tokens : List Token) : Except QueryError (MatchClause × List Token) := do
  let (_, tokens) ← expect tokens .symbol (some (PyStr.lit "("))
  let (varName, tokens) ← expect tokens .identifier none
  let (colon, tokens) ← matchToken tokens .symbol (some (PyStr.lit ":"))
  let (labels, tokens) ←
    if colon then do
      let (label, tokens) ← expect tokens .identifier none
      pure ([label.value], tokens)
    else pure ([], tokens)
  let (_, tokens) ← expect tokens .symbol (some (PyStr.lit ")"))
  return (⟨varName.value, labels, .empty⟩, tokens)

def parseWhere (tokens : List Token) : Except QueryError (WhereClause × List Token) := do
  let (varName, tokens) ← expect tokens .identifier none
  let (_, tokens) ← expect tokens .symbol (some (PyStr.lit "."))
  let (propName, tokens) ← expect tokens .identifier none
  let (op, tokens) ← expect tokens .symbol (some (PyStr.lit "="))
  let valToken := current tokens
  if valToken.type ≠ .string ∧ valToken.type ≠ .number then
    throw (.syntaxError .expectedLiteral)
  else return (⟨varName.value, propName.value, op.value, valToken.value⟩, tokens.tail)

def parseReturn (tokens : List Token) : Except QueryError (ReturnClause × List Token) := do
  let (varName, tokens) ← expect tokens .identifier none
  return (⟨varName.value⟩, tokens)

def parse (tokens : List Token) : Except QueryError QueryAST := do
  let (found, tokens) ← matchToken tokens .keyword (some (PyStr.lit "MATCH"))
  if found then do
    let (pattern, tokens) ← parsePattern tokens
    let (condition, tokens) ←
      if ← peek tokens .keyword (some (PyStr.lit "WHERE")) then do
        let (condition, tokens) ← parseWhere tokens.tail
        pure (some condition, tokens)
      else pure (none, tokens)
    let (found, tokens) ← matchToken tokens .keyword (some (PyStr.lit "RETURN"))
    if found then do
      let (ret, _) ← parseReturn tokens
      return ⟨[pattern], condition, [ret]⟩
    else throw (.syntaxError .mustHaveReturn)
  else throw (.syntaxError .mustStartWithMatch)

end QueryParser

/-- `QueryParser(text).parse()`; `none` when the lexer does not end. -/
def parseQuery (W : WordChars) (text : PyStr) : Option (Except QueryError QueryAST) :=
  (Lexer.tokenize W text).map fun tokens => tokens.bind QueryParser.parse

/-! ## The grammar -/

inductive Terminal where
  | keyword (k : PyStr)
  | symbol (c : Char)
  | name (w : PyStr)
  | literal (v : TokenValue)

structure Condition where
  varName : PyStr
  property : PyStr
  literal : TokenValue

structure Query where
  varName : PyStr
  label : Option PyStr
  condition : Option Condition
  returned : PyStr

namespace Query

def labelTerminals : Option PyStr → List Terminal
  | none => []
  | some label => [.symbol ':', .name label]

def conditionTerminals : Option Condition → List Terminal
  | none => []
  | some c => [.keyword (PyStr.lit "WHERE"), .name c.varName, .symbol '.', .name c.property,
      .symbol '=', .literal c.literal]

/-- `MATCH ( var [: label] ) [WHERE var . prop = literal] RETURN var`. -/
def terminals (q : Query) : List Terminal :=
  .keyword (PyStr.lit "MATCH") :: .symbol '(' :: .name q.varName ::
    (labelTerminals q.label ++ .symbol ')' ::
      (conditionTerminals q.condition ++ [.keyword (PyStr.lit "RETURN"), .name q.returned]))

def ast (q : Query) : QueryAST where
  matchClauses := [⟨.str q.varName, (q.label.map TokenValue.str).toList, .empty⟩]
  whereClause := q.condition.map fun c =>
    ⟨.str c.varName, .str c.property, .str (PyStr.lit "="), c.literal⟩
  returnClauses := [⟨.str q.returned⟩]

end Query

def Token.Denotes (t : Token) : Terminal → Prop
  | .keyword k => t.type = .keyword ∧ ∃ s, t.value = .str s ∧ PyStr.upper s = k
  | .symbol c => t.type = .symbol ∧ t.value = .str [.scalar c]
  | .name w => t.type = .identifier ∧ t.value = .str w
  | .literal v => (t.type = .string ∨ t.type = .number) ∧ t.value = v

/-- The tokens are the sentence that the query derives. -/
def Query.Derives (q : Query) (tokens : List Token) : Prop :=
  List.Forall₂ Token.Denotes tokens q.terminals

end PythonPortfolio.Nebula
