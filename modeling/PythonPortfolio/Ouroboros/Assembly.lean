import Mathlib.Data.List.ReduceOption
import Mathlib.Logic.Function.Basic
import PythonPortfolio.Ouroboros.Vm

/-!
# Assembly programs

What a source text says, without the compiler: instructions one per line, rendered in
any letter case with any blanks and comments, and their direct execution on a stack
and a map from names to values. Only the operators are shared with the machine.
-/

namespace PythonPortfolio.Ouroboros

open Library

inductive Instr where
  | push (val : Literal)
  | store (x : PyStr)
  | load (x : PyStr)
  | add
  | sub
  | mul
  | eq
  | print
  | halt
  | label (l : PyStr)
deriving DecidableEq

/-- A line of a program: an instruction of the data path, or a jump. -/
inductive Statement where
  | instr (i : Instr)
  | jump (conditional : Bool) (target : PyStr)
deriving DecidableEq

/-! ## Rendering -/

/-- `w` is the mnemonic in some letter case. -/
def SpellsMnemonic (mnemonic w : PyStr) : Prop :=
  (∀ c ∈ w, c.isLetter = true) ∧ PyStr.upper w = mnemonic

instance (mnemonic w : PyStr) : Decidable (SpellsMnemonic mnemonic w) :=
  inferInstanceAs (Decidable ((∀ c ∈ w, _) ∧ _))

/-- A string literal the word-oriented syntax can hold. -/
def Quotable (s : PyStr) : Prop :=
  (∀ c ∈ s, c.isSpace = false ∧ c ≠ .scalar '#' ∧ c ≠ .scalar '"') ∧ s ≠ PyStr.lit ":"

inductive SpellsLiteral : Literal → PyStr → Prop
  | int {n : Nat} {digits : PyStr} (hne : digits ≠ []) (hn : PyStr.int? digits = some n) :
      SpellsLiteral (.int n) digits
  | str {s : PyStr} (hs : Quotable s) :
      SpellsLiteral (.str s) (.scalar '"' :: (s ++ [.scalar '"']))

/-- The mnemonic of an instruction without operand. -/
def Instr.mnemonic? : Instr → Option OpCode
  | .add => some .add
  | .sub => some .sub
  | .mul => some .mul
  | .eq => some .eq
  | .print => some .print
  | .halt => some .halt
  | _ => none

/-- The words of a line. -/
inductive Spells : Statement → List PyStr → Prop
  | push {val : Literal} {w arg : PyStr} (hw : SpellsMnemonic (PyStr.lit "PUSH") w)
      (harg : SpellsLiteral val arg) : Spells (.instr (.push val)) [w, arg]
  | store {x w : PyStr} (hw : SpellsMnemonic (PyStr.lit "STORE") w) (hx : PyStr.Identifier x) :
      Spells (.instr (.store x)) [w, x]
  | load {x w : PyStr} (hw : SpellsMnemonic (PyStr.lit "LOAD") w) (hx : PyStr.Identifier x) :
      Spells (.instr (.load x)) [w, x]
  | plain {i : Instr} {op : OpCode} {w : PyStr} (hi : i.mnemonic? = some op)
      (hw : SpellsMnemonic op.name w) : Spells (.instr i) [w]
  | label {l : PyStr} (hl : PyStr.Identifier l) : Spells (.instr (.label l)) [l ++ [.scalar ':']]
  | jump {target w : PyStr} (hw : SpellsMnemonic OpCode.jmp.name w)
      (hl : PyStr.Identifier target) : Spells (.jump false target) [w, target]
  | jumpIfFalse {target w : PyStr} (hw : SpellsMnemonic OpCode.jmpIfFalse.name w)
      (hl : PyStr.Identifier target) : Spells (.jump true target) [w, target]

/-- The end of a line: nothing, or a comment. -/
def Comment : PyStr → Prop
  | [] => True
  | c :: _ => c = .scalar '#'

/-- A line holds one statement or none, with blanks and a comment. -/
def RendersLine (line : PyStr) (statement : Option Statement) : Prop :=
  ∃ words text comment, line = text ++ comment ∧ PyStr.Spaced words text ∧ Comment comment ∧
    match statement with
    | none => words = []
    | some s => Spells s words

/-- A source text renders a program, a line for each statement and possibly more. -/
def Renders (source : PyStr) (program : List Statement) : Prop :=
  ∃ lines, List.Forall₂ RendersLine (PyStr.splitlines source) lines ∧
    lines.reduceOption = program

/-! ## Direct execution -/

structure Config where
  stack : List Value
  env : PyStr → Option Value
  printed : List PyStr

inductive Failure where
  | stackUnderflow
  | undefinedName (x : PyStr)
  | operand (e : OperandError)
deriving DecidableEq

/-- How an instruction ends. -/
inductive Effect where
  | next (c : Config)
  | halt (c : Config)
  | fail (f : Failure) (c : Config)

namespace Config

def init : Config := ⟨[], fun _ => none, []⟩

def push (c : Config) (val : Value) : Config := { c with stack := val :: c.stack }

def pop (c : Config) (k : Value → Config → Effect) : Effect :=
  match c.stack with
  | [] => .fail .stackUnderflow c
  | val :: stack => k val { c with stack := stack }

def operate (c : Config) (f : Value → Value → Except OperandError Value) : Effect :=
  c.pop fun b c => c.pop fun a c =>
    match f a b with
    | .ok val => .next (c.push val)
    | .error e => .fail (.operand e) c

def perform (c : Config) : Instr → Effect
  | .push val => .next (c.push val.value)
  | .store x => c.pop fun val c => .next { c with env := Function.update c.env x (some val) }
  | .load x =>
    match c.env x with
    | none => .fail (.undefinedName x) c
    | some val => .next (c.push val)
  | .add => c.operate Value.add
  | .sub => c.operate Value.sub
  | .mul => c.operate Value.mul
  | .eq => c.operate fun a b => .ok (.bool (a.equals b))
  | .print => c.pop fun val c => .next { c with printed := c.printed ++ [val.format] }
  | .halt => .halt c
  | .label _ => .next c

/-- Execute the instructions in order: the configuration reached, and the failure with
the place of the instruction it occurred at. -/
def performAll (c : Config) : List Instr → Config × Option (Nat × Failure)
  | [] => (c, none)
  | i :: rest =>
    match c.perform i with
    | .next c =>
      match c.performAll rest with
      | (c, none) => (c, none)
      | (c, some (k, f)) => (c, some (k + 1, f))
    | .halt c => (c, none)
    | .fail f c => (c, some (0, f))

end Config

end PythonPortfolio.Ouroboros
