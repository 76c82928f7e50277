import PL0.Instruction
import PL0.Memory
import PL0.Sink
import PL0.Word

/-!
# `PL0.Machine` — the stack machine

The machine runs a list of instructions on an operand stack and a stack of memory blocks. `CAL`
leaves its return address on the operand stack; `OPR 0` leaves a block and returns to the address on
top of the operand stack, or halts the machine where there is none. Loading offset 0 of the I/O
block takes the next input value, storing to its offset 1 writes a value.

`Machine.step` executes one instruction. A fault leaves what the instruction had already done:
popped operands stay popped, and the instruction pointer is already behind the instruction. Only an
address outside the code changes nothing. `Run.advance` executes a bounded number of instructions.
-/

namespace PL0

/-- What an instruction cannot do. -/
inductive Fault where
  | inputExhausted
  /-- No slot is at this level and offset. -/
  | invalidAddress (level : Nat) (offset : Int)
  /-- Control was to go outside the code. -/
  | codeAddressOutOfRange (target : Int)
  /-- The operation cannot use its operand. -/
  | invalidOperand
  | stackUnderflow
  | noActiveBlock
  | blockTooLarge (size : Nat)
  | divisionByZero
  | overflow
deriving DecidableEq, Repr, Inhabited

def Fault.message : Fault → String
  | inputExhausted => "Input exhausted"
  | invalidAddress level offset => s!"Invalid address level {level} offset {offset}"
  | codeAddressOutOfRange target => s!"Code address {target} out of range"
  | invalidOperand => "Invalid operand"
  | stackUnderflow => "Operand stack underflow"
  | noActiveBlock => "No active block to leave"
  | blockTooLarge size => s!"Block of {size} slots too large"
  | divisionByZero => "Division by zero"
  | overflow => "Integer overflow"

/-- A result where it is a word. -/
def Fault.orOverflow (v : Int) : Except Fault Int :=
  match Word.checked v with
  | some w => .ok w
  | none => .error overflow

/-- The exact result, where it is a word; a quotient is truncated toward zero. -/
def Arith.eval : Arith → Int → Int → Except Fault Int
  | add, l, r => Fault.orOverflow (l + r)
  | sub, l, r => Fault.orOverflow (l - r)
  | mul, l, r => Fault.orOverflow (l * r)
  | div, l, r => if r = 0 then .error .divisionByZero else Fault.orOverflow (l.tdiv r)

/-- Why an instruction did not come to its end. -/
inductive Interruption where
  | fault (f : Fault)
  | refused (e : SinkFailure)
deriving DecidableEq, Repr, Inhabited

/-- What a step answers. -/
inductive Outcome where
  | running
  | halted
  /-- The instruction at this address faulted. -/
  | fault (address : Nat) (f : Fault)
  /-- The sink refused a value. -/
  | refused (e : SinkFailure)
deriving DecidableEq, Repr, Inhabited

structure Machine where
  code : Array Instruction
  /-- The address of the next instruction, none once halted. -/
  ip : Option Nat
  /-- The operand stack, top first. -/
  stack : List Int
  memory : Memory
  /-- The input values not yet taken. -/
  input : List Int
  sink : Sink
deriving DecidableEq, Repr, Inhabited

namespace Machine

/-- The machine before its first instruction. -/
def load (code : Array Instruction) (input : List Int) (sink : Sink) : Machine :=
  ⟨code, some 0, [], Memory.empty, input, sink⟩

/-- Whether the machine has halted. -/
def isHalted (m : Machine) : Bool := m.ip.isNone

/-- The instruction to be executed next, and its address. -/
def fetch? (m : Machine) : Option (Nat × Instruction) := do
  let address ← m.ip
  let i ← m.code[address]?
  return (address, i)

/-- An instruction that came to its end, and the machine after it. -/
def done (m : Machine) : Option Interruption × Machine := (none, m)

/-- An instruction that faulted, and the machine as it left it. -/
def fail (m : Machine) (f : Fault) : Option Interruption × Machine := (some (.fault f), m)

def push (m : Machine) (v : Int) : Machine := { m with stack := v :: m.stack }

/-- The value at an address; the input channel gives its next value. -/
def fetchValue (m : Machine) (level : Nat) (offset : Int) : Except Fault (Int × Machine) :=
  match m.memory.cell level offset with
  | some (.slot _ _ value) => .ok (value, m)
  | some .input =>
    match m.input with
    | [] => .error .inputExhausted
    | v :: input => .ok (v, { m with input })
  | some .output => .error (.invalidAddress level offset)
  | none => .error (.invalidAddress level offset)

/-- Put a value at an address; the output channel writes it. -/
def storeValue (m : Machine) (level : Nat) (offset : Int) (value : Int) :
    Option Interruption × Machine :=
  match m.memory.cell level offset with
  | some (.slot l k _) => done { m with memory := m.memory.set l k value }
  | some .output =>
    match m.sink.write value with
    | (none, sink) => done { m with sink }
    | (some e, sink) => (some (.refused e), { m with sink })
  | some .input => m.fail (.invalidAddress level offset)
  | none => m.fail (.invalidAddress level offset)

/-- Go on at `target`. -/
def jump (m : Machine) (target : Int) : Option Interruption × Machine :=
  if target < 0 then m.fail (.codeAddressOutOfRange target)
  else done { m with ip := some target.toNat }

/-- Apply an operator to the top of the stack; the right operand is above the left one. -/
def applyOperator (m : Machine) : Operator → Option Interruption × Machine
  | .odd =>
    match m.stack with
    | v :: stack => done { m with stack := Word.ofBool (v % 2 != 0) :: stack }
    | [] => m.fail .stackUnderflow
  | .relation rel =>
    match m.stack with
    | r :: l :: stack => done { m with stack := Word.ofBool (rel.holds l r) :: stack }
    | _ => { m with stack := [] }.fail .stackUnderflow
  | .arith op =>
    match m.stack with
    | r :: l :: stack =>
      match op.eval l r with
      | .ok v => done { m with stack := v :: stack }
      | .error f => { m with stack }.fail f
    | _ => { m with stack := [] }.fail .stackUnderflow

/-- Leave the innermost block and return, or halt where no return address is left. -/
def leave (m : Machine) : Option Interruption × Machine :=
  match m.memory.exit? with
  | none => m.fail .noActiveBlock
  | some memory =>
    match m.stack with
    | [] => done { m with memory, ip := none }
    | target :: stack => { m with memory, stack }.jump target

/-- Execute the instruction at `address`, the instruction pointer being behind it already. -/
def execute (m : Machine) (address : Nat) (i : Instruction) : Option Interruption × Machine :=
  match i.op, i.offset with
  | .lit, .number n => done (m.push n)
  | .lod, .number n =>
    match m.fetchValue i.level n with
    | .ok (v, m) => done (m.push v)
    | .error f => m.fail f
  | .sto, offset =>
    match m.stack with
    | [] => m.fail .stackUnderflow
    | v :: stack =>
      match offset with
      | .number n => { m with stack }.storeValue i.level n v
      | .operator _ => { m with stack }.fail .invalidOperand
  | .cal, .number n =>
    match m.fetchValue i.level n with
    | .ok (target, m) => (m.push (address + 1)).jump target
    | .error f => m.fail f
  | .int, .number n =>
    if n < 0 then m.fail .invalidOperand
    else
      match m.memory.enter? n.toNat with
      | some memory => done { m with memory }
      | none => m.fail (.blockTooLarge n.toNat)
  | .jmp, .number n => m.jump n
  | .jpc, offset =>
    match m.stack with
    | [] => m.fail .stackUnderflow
    | v :: stack =>
      if v = 0 then
        match offset with
        | .number n => { m with stack }.jump n
        | .operator _ => { m with stack }.fail .invalidOperand
      else done { m with stack }
  | .opr, .number n => if n = 0 then m.leave else m.fail .invalidOperand
  | .opr, .operator op => m.applyOperator op
  | _, .operator _ => m.fail .invalidOperand

/-- Execute the next instruction. A halted machine stays halted. -/
def step (m : Machine) : Outcome × Machine :=
  match m.ip with
  | none => (.halted, m)
  | some address =>
    match m.code[address]? with
    | none => (.fault address (.codeAddressOutOfRange address), m)
    | some i =>
      match { m with ip := some (address + 1) }.execute address i with
      | (none, m) => (if m.isHalted then .halted else .running, m)
      | (some (.fault f), m) => (.fault address f, m)
      | (some (.refused e), m) => (.refused e, m)

/-- The answers of up to `n` steps, each with the machine after it. Unless `pastFaults` the first
step that does not answer `running` is the last one. -/
def history (pastFaults : Bool) : Nat → Machine → List (Outcome × Machine)
  | 0, _ => []
  | n + 1, m =>
    let (o, m) := m.step
    (o, m) :: if pastFaults || o = .running then history pastFaults n m else []

end Machine

/-- A run: the answer of its last step, the number of steps that answered `running`, and the
machine. -/
structure Run where
  outcome : Outcome
  steps : Nat
  machine : Machine
deriving DecidableEq, Repr, Inhabited

namespace Run

/-- The run before its first step. -/
def start (m : Machine) : Run := ⟨.running, 0, m⟩

/-- Go on for up to `n` steps, or until a step does not answer `running`. -/
def advance : Nat → Run → Run
  | 0, r => r
  | n + 1, r =>
    match r.outcome with
    | .running =>
      match r.machine.step with
      | (.running, m) => advance n ⟨.running, r.steps + 1, m⟩
      | (o, m) => ⟨o, r.steps, m⟩
    | _ => r

/-- Whether the run has come to its end. -/
def isOver (r : Run) : Bool := r.outcome != .running

end Run

end PL0
