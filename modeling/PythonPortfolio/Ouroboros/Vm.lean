import PythonPortfolio.Ouroboros.Compiler

/-!
# The Ouroboros virtual machine

The operators are Python's on the three types that occur. The stack is kept with its
top first. `run` is given fuel, since a program may loop; what `print` writes is part
of the state.
-/

namespace PythonPortfolio.Ouroboros

open Library Library.BigEndian

inductive Value where
  | int (n : Int)
  | str (s : PyStr)
  | bool (b : Bool)
deriving DecidableEq

inductive OperandError where
  | typeError
  | overflowError
deriving DecidableEq

def Literal.value : Literal → Value
  | .int n => .int n
  | .str s => .str s

namespace Value

/-- `bool` is a subtype of `int`. -/
def number? : Value → Option Int
  | .int n => some n
  | .bool b => some (if b then 1 else 0)
  | .str _ => none

def arithmetic (f : Int → Int → Int) (a b : Value) : Except OperandError Value :=
  match a.number?, b.number? with
  | some m, some n => .ok (.int (f m n))
  | _, _ => .error .typeError

def add : Value → Value → Except OperandError Value
  | .str s, .str t => .ok (.str (s ++ t))
  | a, b => arithmetic (· + ·) a b

def sub (a b : Value) : Except OperandError Value := arithmetic (· - ·) a b

/-- The count of a repetition must fit a `Py_ssize_t`. -/
def repeatStr (s : PyStr) (n : Int) : Except OperandError Value :=
  if -2 ^ 63 ≤ n ∧ n < 2 ^ 63 then .ok (.str (List.replicate n.toNat s).flatten)
  else .error .overflowError

def mul (a b : Value) : Except OperandError Value :=
  match a, b with
  | .str _, .str _ => .error .typeError
  | .str s, .int n => repeatStr s n
  | .int n, .str s => repeatStr s n
  | .str s, .bool b => repeatStr s (if b then 1 else 0)
  | .bool b, .str s => repeatStr s (if b then 1 else 0)
  | a, b => arithmetic (· * ·) a b

/-- `a == b`. -/
def equals : Value → Value → Bool
  | .str s, .str t => s = t
  | a, b =>
    match a.number?, b.number? with
    | some m, some n => m = n
    | _, _ => false

/-- `bool(a)`. -/
def truthy : Value → Bool
  | .int n => n ≠ 0
  | .str s => s ≠ []
  | .bool b => b

/-- `str(a)`. -/
def format : Value → PyStr
  | .int n => PyStr.lit (toString n)
  | .str s => s
  | .bool b => PyStr.lit (if b then "True" else "False")

end Value

/-- The exceptions of `run`; the first four are an `IndexError`. -/
inductive VmError where
  | codeIndex
  | constIndex
  | nameIndex
  | popFromEmptyList
  | nameError (message : PyStr)
  | operand (e : OperandError)
  | runtimeError (message : PyStr)
deriving DecidableEq

structure VirtualMachine where
  stack : List Value
  globals : Dict PyStr Value
  ip : Nat
  out : List PyStr

/-- How an instruction ends: the loop goes on, is left, or an exception is raised. -/
inductive Step where
  | next (vm : VirtualMachine)
  | leave (vm : VirtualMachine)
  | raise (e : VmError) (vm : VirtualMachine)

namespace VirtualMachine

def init : VirtualMachine := ⟨[], .empty, 0, []⟩

def push (vm : VirtualMachine) (val : Value) : VirtualMachine :=
  { vm with stack := val :: vm.stack }

def println (vm : VirtualMachine) (line : PyStr) : VirtualMachine :=
  { vm with out := vm.out ++ [line] }

/-- `_read_arg`, whose value the rest of the instruction uses. -/
def readArg (vm : VirtualMachine) (code : Bytes) (k : Nat → VirtualMachine → Step) : Step :=
  match code[vm.ip]?, code[vm.ip + 1]? with
  | some hi, some lo => k (hi.toNat <<< 8 ||| lo.toNat) { vm with ip := vm.ip + 2 }
  | _, _ => .raise .codeIndex vm

def pop (vm : VirtualMachine) (k : Value → VirtualMachine → Step) : Step :=
  match vm.stack with
  | [] => .raise .popFromEmptyList vm
  | val :: stack => k val { vm with stack := stack }

/-- `b = pop(); a = pop(); append(f(a, b))`. -/
def binary (vm : VirtualMachine) (f : Value → Value → Except OperandError Value) : Step :=
  vm.pop fun b vm => vm.pop fun a vm =>
    match f a b with
    | .ok val => .next (vm.push val)
    | .error e => .raise (.operand e) vm

/-- Decode and execute the instruction with opcode `op`; `ip` is already behind it. -/
def execute (vm : VirtualMachine) (co : CodeObject) (op : UInt8) : Step :=
  match OpCode.ofByte? op with
  | some .loadConst => vm.readArg co.coCode fun idx vm =>
    match co.coConsts[idx]? with
    | none => .raise .constIndex vm
    | some val => .next (vm.push val.value)
  | some .loadName => vm.readArg co.coCode fun idx vm =>
    match co.coNames[idx]? with
    | none => .raise .nameIndex vm
    | some name =>
      match vm.globals.get? name with
      | none => .raise (.nameError (PyStr.lit "Name '" ++ name ++ PyStr.lit "' is not defined")) vm
      | some val => .next (vm.push val)
  | some .storeName => vm.readArg co.coCode fun idx vm =>
    match co.coNames[idx]? with
    | none => .raise .nameIndex vm
    | some name => vm.pop fun val vm => .next { vm with globals := vm.globals.set name val }
  | some .add => vm.binary Value.add
  | some .sub => vm.binary Value.sub
  | some .mul => vm.binary Value.mul
  | some .eq => vm.binary fun a b => .ok (.bool (a.equals b))
  | some .print => vm.pop fun val vm => .next (vm.println (PyStr.lit "[STDOUT] " ++ val.format))
  | some .jmp => vm.readArg co.coCode fun target vm => .next { vm with ip := target }
  | some .jmpIfFalse => vm.readArg co.coCode fun target vm => vm.pop fun condition vm =>
    .next (if condition.truthy then vm else { vm with ip := target })
  | some .halt => .leave vm
  | some .div | some .call | some .ret | none =>
    .raise (.runtimeError (PyStr.lit "Unknown OpCode: " ++ PyStr.lit (toString op.toNat) ++
      PyStr.lit " at " ++ PyStr.lit (toString vm.ip))) vm

def finish (vm : VirtualMachine) : VirtualMachine :=
  vm.println (PyStr.lit "--- VM EXECUTION FINISHED ---")

/-- The loop of `run`: the state it leaves and the exception, if any; `none` when the
fuel does not suffice. -/
def loop (co : CodeObject) : Nat → VirtualMachine → Option (VirtualMachine × Option VmError)
  | 0, _ => none
  | fuel + 1, vm =>
    match co.coCode[vm.ip]? with
    | none => some (vm.finish, none)
    | some op =>
      match ({ vm with ip := vm.ip + 1 } : VirtualMachine).execute co op with
      | .next vm => loop co fuel vm
      | .leave vm => some (vm.finish, none)
      | .raise e vm => some (vm, some e)

def run (vm : VirtualMachine) (co : CodeObject) (fuel : Nat) :
    Option (VirtualMachine × Option VmError) :=
  loop co fuel (({ vm with ip := 0 } : VirtualMachine).println
    (PyStr.lit "\n--- VM EXECUTION START ---"))

end VirtualMachine

end PythonPortfolio.Ouroboros
