import PythonPortfolio.Ouroboros.ControlFlow

/-!
# Checked programs

The machine checks nothing before it runs: an empty stack, a name without a value and an
operand of the wrong type show up in the middle of a run. A program can be checked
beforehand. A frame says for a place what is on the stack and which names have a value;
where every statement leads from its frame to the frames behind it, no run fails in
these ways.
-/

namespace PythonPortfolio.Ouroboros

open Library

/-- What an operator sees of a value: a `bool` passes for an `int`. -/
inductive Ty where
  | number
  | text
deriving DecidableEq

def Value.ty : Value → Ty
  | .int _ | .bool _ => .number
  | .str _ => .text

/-- What is known at a place. -/
structure Frame where
  stack : List Ty
  names : Dict PyStr Ty

def Frame.init : Frame := ⟨[], .empty⟩

def Frame.push (f : Frame) (t : Ty) : Frame := { f with stack := t :: f.stack }

/-- The first frame is at least as good as the second. -/
def Frame.provides (g f : Frame) : Bool :=
  g.stack = f.stack && f.names.items.all fun p => g.names.get? p.1 = some p.2

/-- The type of the result of an operator, if it accepts the operands. -/
def Instr.result? : Instr → Ty → Ty → Option Ty
  | .add, .number, .number => some .number
  | .add, .text, .text => some .text
  | .sub, .number, .number => some .number
  | .mul, .number, .number => some .number
  | .mul, .text, .number => some .text
  | .mul, .number, .text => some .text
  | .eq, _, _ => some .number
  | _, _, _ => none

/-- The frame behind an instruction, unless it can fail. -/
def Frame.after (f : Frame) : Instr → Option Frame
  | .push val => some (f.push val.value.ty)
  | .load x => (f.names.get? x).map f.push
  | .store x =>
    match f.stack with
    | [] => none
    | t :: stack => some ⟨stack, f.names.set x t⟩
  | .print =>
    match f.stack with
    | [] => none
    | _ :: stack => some { f with stack := stack }
  | .label _ | .halt => some f
  | i =>
    match f.stack with
    | b :: a :: stack => (i.result? a b).map fun t => ⟨t :: stack, f.names⟩
    | _ => none

/-- The place has a frame that the given one provides. -/
def meets (frames : List (Option Frame)) (k : Nat) (g : Frame) : Bool :=
  match frames[k]? with
  | some (some f) => g.provides f
  | _ => false

/-- The statement at the place `k` leads from the frame to the frames behind it. -/
def leads (program : List Statement) (frames : List (Option Frame)) (k : Nat) (f : Frame) :
    Statement → Bool
  | .instr .halt => true
  | .instr i =>
    match f.after i with
    | none => false
    | some g => meets frames (k + 1) g
  | .jump false target => meets frames (goto program target) f
  | .jump true target =>
    match f.stack with
    | [] => false
    | _ :: stack =>
      meets frames (k + 1) { f with stack := stack } &&
        meets frames (goto program target) { f with stack := stack }

/-- The configuration is as the frame says. -/
structure Fits (f : Frame) (c : Config) : Prop where
  stack : c.stack.map Value.ty = f.stack
  names : ∀ x t, f.names.get? x = some t → ∃ val, c.env x = some val ∧ val.ty = t

variable {f g : Frame} {c : Config} {i : Instr} {op : Value → Value → Except OperandError Value}

variable {program : List Statement} {frames : List (Option Frame)}

end PythonPortfolio.Ouroboros
