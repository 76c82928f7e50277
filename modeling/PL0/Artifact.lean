import PL0.Instruction
import PL0.Json.Reader

/-!
# `PL0.Artifact` — code as JSON

An artifact is a JSON array of instructions. It is written with one object for each instruction, its
keys `op`, `level` and `offset` in this order. When it is read the keys may come in any order, each
exactly once, with other keys among them that are passed over; an instruction may also be the array
of its three values. Levels are unsigned and offsets signed 64-bit integers. Operations and operators
are written as strings; read are also objects such as `{"LIT": null}`, whose only key is the name.
-/

namespace PL0

namespace Artifact

/-- The greatest level that an artifact may hold. -/
def maxLevel : Nat := 18446744073709551615

/-! ## Writing -/

def ofOperand : Operand → Json
  | .number n => Json.ofInt n
  | .operator op => Json.ofText op.symbol

def ofInstruction (i : Instruction) : Json :=
  .object [.mk "op" (Json.ofText i.op.mnemonic), .mk "level" (Json.ofNat i.level),
    .mk "offset" (ofOperand i.offset)]

/-- The artifact of a list of instructions. -/
def write (code : List Instruction) : String := (Json.array (code.map ofInstruction)).pretty

/-! ## Reading -/

/-- The name that a document gives: as a string, or as the only key of an object, its value null. -/
def name? : Json → Option String
  | .object [.mk key .null] => Json.literalText? key
  | j => j.text?

def opCode? (j : Json) : Option OpCode := do
  OpCode.ofMnemonic? (← name? j)

def level? (j : Json) : Option Nat := do
  let n ← j.integer?
  if 0 ≤ n ∧ n ≤ maxLevel then some n.toNat else none

def operand? (j : Json) : Option Operand :=
  match j.integer? with
  | some n => (Word.checked n).map .number
  | none => do
    let op ← Operator.ofSymbol? (← name? j)
    return .operator op

/-- The instruction of three values. -/
def assemble? (op level offset : Json) : Option Instruction := do
  return ⟨← opCode? op, ← level? level, ← operand? offset⟩

/-- The members of an object with the texts of their keys. -/
def keyed? : List Json.Member → Option (List (String × Json))
  | [] => some []
  | m :: ms => do
    let key ← Json.literalText? m.key
    let rest ← keyed? ms
    return (key, m.value) :: rest

/-- The value of a key that occurs exactly once. -/
def only? (key : String) (members : List (String × Json)) : Option Json :=
  match members.filter fun m => m.1 == key with
  | [(_, j)] => some j
  | _ => none

def instruction? : Json → Option Instruction
  | .object members => do
    let members ← keyed? members
    assemble? (← only? "op" members) (← only? "level" members) (← only? "offset" members)
  | .array [op, level, offset] => assemble? op level offset
  | _ => none

def instructions? : List Json → Option (List Instruction)
  | [] => some []
  | j :: js => do
    let i ← instruction? j
    let is ← instructions? js
    return i :: is

/-- The instructions of a document. -/
def ofJson? : Json → Option (List Instruction)
  | .array items => instructions? items
  | _ => none

/-- The instructions of an artifact. -/
def read? (text : String) : Option (List Instruction) := do
  ofJson? (← Json.read? text)

end Artifact

end PL0
