import PythonPortfolio.Library.BigEndian
import PythonPortfolio.Library.Dict
import PythonPortfolio.Library.Pool
import PythonPortfolio.Ouroboros.OpCodes

/-!
# The Ouroboros compiler

`compile` tokenizes the source, walks the tokens once while it emits code, and
patches the jumps it has put aside. The walk is a recursion on the tokens that are
left, where the source advances an index; looking at the token after the next stands
for `tokens[i+1]`. Of the warnings printed on the way only the words they name are
kept.
-/

namespace PythonPortfolio.Ouroboros

open Library Library.BigEndian

/-- A constant: Python compares these as the model does. -/
inductive Literal where
  | int (n : Nat)
  | str (s : PyStr)
deriving DecidableEq

structure CodeObject where
  coCode : Bytes
  coConsts : List Literal
  coNames : List PyStr
deriving DecidableEq

inductive TokenType where
  | identifier
  | number
  | string
  | symbol
deriving DecidableEq

structure Token where
  typ : TokenType
  val : PyStr
deriving DecidableEq

inductive CompileError where
  | indexError
  | valueError (message : PyStr)
deriving DecidableEq

/-- The tokens of one word of a line. -/
def partTokens (part : PyStr) : List Token :=
  if part.getLast? = some (.scalar ':') then
    [⟨.identifier, part.dropLast⟩, ⟨.symbol, PyStr.lit ":"⟩]
  else if PyStr.isDigit part then [⟨.number, part⟩]
  else if part.head? = some (.scalar '"') then [⟨.string, part.tail.dropLast⟩]
  else [⟨.identifier, part⟩]

def cleanLines (source : PyStr) : List PyStr :=
  ((PyStr.splitlines source).filter fun l => PyStr.strip l ≠ []).map fun l =>
    PyStr.strip (PyStr.before (.scalar '#') l)

def tokenize (source : PyStr) : List Token :=
  (cleanLines source).flatMap fun line => (PyStr.split line).flatMap partTokens

structure Compiler where
  code : Bytes
  consts : List Literal
  names : List PyStr
  labels : Dict PyStr Nat
  jumpsToFix : List (Nat × PyStr)
  unknown : List PyStr

namespace Compiler

def init : Compiler := ⟨[], [], [], .empty, [], []⟩

def emit (c : Compiler) (op : OpCode) : Compiler := { c with code := c.code ++ [op.byte] }

def emitArg (c : Compiler) (arg : Nat) : Compiler :=
  { c with code := c.code ++ [UInt8.ofNat (arg >>> 8 &&& 0xFF), UInt8.ofNat (arg &&& 0xFF)] }

def addConst (c : Compiler) (val : Literal) : Nat × Compiler :=
  let (consts, idx) := intern c.consts val
  (idx, { c with consts := consts })

def addName (c : Compiler) (name : PyStr) : Nat × Compiler :=
  let (names, idx) := intern c.names name
  (idx, { c with names := names })

/-- `int(arg_val) if arg_typ == NUMBER else arg_val`. -/
def argument (arg : Token) : Except CompileError Literal :=
  match arg.typ with
  | .number =>
    match PyStr.int? arg.val with
    | some n => .ok (.int n)
    | none => .error (.valueError
        (PyStr.lit "invalid literal for int() with base 10: '" ++ arg.val ++ PyStr.lit "'"))
  | _ => .ok (.str arg.val)

def emitConst (c : Compiler) (val : Literal) : Compiler :=
  let (idx, c) := (c.emit .loadConst).addConst val
  c.emitArg idx

def emitName (c : Compiler) (op : OpCode) (name : PyStr) : Compiler :=
  let (idx, c) := (c.emit op).addName name
  c.emitArg idx

def emitJump (c : Compiler) (op : OpCode) (target : PyStr) : Compiler :=
  let c := c.emit op
  ({ c with jumpsToFix := c.jumpsToFix ++ [(c.code.length, target)] } : Compiler).emitArg 0xFFFF

/-- One token that is not a label, with the token after it; the result says whether
that one is consumed as well. -/
def instruction (c : Compiler) (token : Token) (next : Option Token) :
    Except CompileError (Bool × Compiler) :=
  match token.typ with
  | .identifier =>
    let opcodeName := PyStr.upper token.val
    match OpCode.attribute? opcodeName with
    | some op => .ok (false, c.emit op)
    | none =>
      if opcodeName = PyStr.lit "PUSH" then
        match next with
        | none => .error .indexError
        | some arg => (argument arg).map fun val => (true, c.emitConst val)
      else if opcodeName = PyStr.lit "STORE" then
        match next with
        | none => .error .indexError
        | some arg => .ok (true, c.emitName .storeName arg.val)
      else if opcodeName = PyStr.lit "LOAD" then
        match next with
        | none => .error .indexError
        | some arg => .ok (true, c.emitName .loadName arg.val)
      -- never reached: both names are attributes of `OpCode`
      else if opcodeName = PyStr.lit "JMP_IF_FALSE" ∨ opcodeName = PyStr.lit "JMP" then
        match next with
        | none => .error .indexError
        | some arg =>
          .ok (true, c.emitJump (if opcodeName = PyStr.lit "JMP" then .jmp else .jmpIfFalse) arg.val)
      else .ok (false, { c with unknown := c.unknown ++ [token.val] })
  | _ => .ok (false, c)

def generate (c : Compiler) : List Token → Except CompileError Compiler
  | [] => .ok c
  | [token] => (c.instruction token none).map Prod.snd
  | token :: next :: rest =>
    if next.val = PyStr.lit ":" then
      generate { c with labels := c.labels.set token.val c.code.length } rest
    else
      match c.instruction token (some next) with
      | .error e => .error e
      | .ok (true, c) => generate c rest
      | .ok (false, c) => generate c (next :: rest)

/-- `self.code[offset : offset+2] = addr`. -/
def patch (code : Bytes) (offset addr : Nat) : Bytes :=
  (code.set offset (UInt8.ofNat (addr >>> 8 &&& 0xFF))).set (offset + 1)
    (UInt8.ofNat (addr &&& 0xFF))

def fixJumps (labels : Dict PyStr Nat) (code : Bytes) :
    List (Nat × PyStr) → Except CompileError Bytes
  | [] => .ok code
  | (offset, label) :: rest =>
    match labels.get? label with
    | none => .error (.valueError (PyStr.lit "Undefined label: " ++ label))
    | some addr => fixJumps labels (patch code offset addr) rest

/-- `compile` of this compiler object. -/
def compile (c : Compiler) (source : PyStr) : Except CompileError CodeObject :=
  match c.generate (tokenize source) with
  | .error e => .error e
  | .ok c =>
    match fixJumps c.labels c.code c.jumpsToFix with
    | .error e => .error e
    | .ok code => .ok ⟨code, c.consts, c.names⟩

end Compiler

end PythonPortfolio.Ouroboros
