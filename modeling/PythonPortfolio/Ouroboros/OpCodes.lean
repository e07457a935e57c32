import PythonPortfolio.Library.PyStr

/-!
# The instruction set

`OpCode` lists the attributes of the class of that name with their bytes. The
compiler asks for an attribute by name (`hasattr`, `getattr`), the machine by byte.
-/

namespace PythonPortfolio.Ouroboros

open Library

inductive OpCode where
  | loadConst
  | loadName
  | storeName
  | add
  | sub
  | mul
  | div
  | eq
  | jmp
  | jmpIfFalse
  | call
  | ret
  | print
  | halt
deriving DecidableEq

namespace OpCode

def all : List OpCode :=
  [loadConst, loadName, storeName, add, sub, mul, div, eq, jmp, jmpIfFalse, call, ret, print, halt]

def byte : OpCode → UInt8
  | loadConst => 0x01
  | loadName => 0x02
  | storeName => 0x03
  | add => 0x10
  | sub => 0x11
  | mul => 0x12
  | div => 0x13
  | eq => 0x14
  | jmp => 0x20
  | jmpIfFalse => 0x21
  | call => 0x30
  | ret => 0x31
  | print => 0x40
  | halt => 0xFF

def name : OpCode → PyStr
  | loadConst => PyStr.lit "LOAD_CONST"
  | loadName => PyStr.lit "LOAD_NAME"
  | storeName => PyStr.lit "STORE_NAME"
  | add => PyStr.lit "ADD"
  | sub => PyStr.lit "SUB"
  | mul => PyStr.lit "MUL"
  | div => PyStr.lit "DIV"
  | eq => PyStr.lit "EQ"
  | jmp => PyStr.lit "JMP"
  | jmpIfFalse => PyStr.lit "JMP_IF_FALSE"
  | call => PyStr.lit "CALL"
  | ret => PyStr.lit "RET"
  | print => PyStr.lit "PRINT"
  | halt => PyStr.lit "HALT"

/-- `getattr(OpCode, s)`, where `hasattr(OpCode, s)`. -/
def attribute? (s : PyStr) : Option OpCode := all.find? fun op => op.name = s

def ofByte? (b : UInt8) : Option OpCode := all.find? fun op => op.byte = b

theorem attribute?_name (op : OpCode) : attribute? op.name = some op := by
  cases op <;> decide

theorem ofByte?_byte (op : OpCode) : ofByte? op.byte = some op := by
  cases op <;> decide

end OpCode

end PythonPortfolio.Ouroboros
