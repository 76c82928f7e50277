import PL0.Operator

/-!
# `PL0.Instruction` — the instructions of the stack machine

An instruction is an operation, a level and an offset; the offset is a number or, for `OPR`, an
operator. Any operation may carry any level and offset: what the machine cannot use it refuses when
it gets there. Instructions are shown as `OP level offset`, and a program as a numbered listing.
-/

namespace PL0

inductive OpCode where
  /-- Push the offset. -/
  | lit
  /-- Push the value at level and offset. -/
  | lod
  /-- Pop into level and offset. -/
  | sto
  /-- Call the address held at level and offset. -/
  | cal
  /-- Open a block of as many slots as the offset says. -/
  | int
  /-- Jump to the offset. -/
  | jmp
  /-- Pop, and jump to the offset where the value was zero. -/
  | jpc
  /-- Leave the block where the offset is 0, otherwise apply an operator. -/
  | opr
deriving DecidableEq, Repr, Inhabited

namespace OpCode

/-- Every operation, once. -/
def all : List OpCode := [lit, lod, sto, cal, int, jmp, jpc, opr]

def mnemonic : OpCode → String
  | lit => "LIT"
  | lod => "LOD"
  | sto => "STO"
  | cal => "CAL"
  | int => "INT"
  | jmp => "JMP"
  | jpc => "JPC"
  | opr => "OPR"

/-- The operation written `text`. -/
def ofMnemonic? (text : String) : Option OpCode := all.find? fun op => op.mnemonic == text

theorem ofMnemonic?_mnemonic (op : OpCode) : ofMnemonic? op.mnemonic = some op := by
  cases op <;> rfl

end OpCode

/-- The last field of an instruction. -/
inductive Operand where
  | number (n : Int)
  | operator (op : Operator)
deriving DecidableEq, Repr, Inhabited

def Operand.display : Operand → String
  | number n => toString n
  | operator op => op.symbol

structure Instruction where
  op : OpCode
  level : Nat
  offset : Operand
deriving DecidableEq, Repr, Inhabited

namespace Instruction

/-- An instruction with a numeric offset. -/
def make (op : OpCode) (level : Nat) (offset : Int) : Instruction := ⟨op, level, .number offset⟩

/-- The instruction that applies an operator. -/
def apply (op : Operator) : Instruction := ⟨.opr, 0, .operator op⟩

/-- The instruction that leaves a block. -/
def leave : Instruction := make .opr 0 0

def display (i : Instruction) : String := s!"{i.op.mnemonic} {i.level} {i.offset.display}"

/-- The line of the instruction at `address`, the address right-aligned in `width` columns. -/
def line (width : Nat) (address : Nat) (i : Instruction) : String :=
  let number := String.ofList ((toString address).toList.leftpad width ' ')
  s!"{number}: {i.display}\n"

/-- The lines of the instructions from `address` on. -/
def lines (width : Nat) (address : Nat) : List Instruction → List String
  | [] => []
  | i :: is => i.line width address :: lines width (address + 1) is

/-- A numbered listing, one instruction on a line; the numbers share the width of the greatest. -/
def listing (code : List Instruction) : String :=
  String.join (lines (toString (code.length - 1)).length 0 code)

end Instruction

end PL0
