import PL0.Code
import PL0.Environment
import PL0.Tree.Sexpr

/-!
# `PL0.Codegen` — from trees to code

One walk over the tree emits the code. A block opens a scope and puts its code between `INT n`, with
`n` the number of names declared in it, and `OPR 0 0`; a name used in it becomes the level and the
slot that the scopes open at that point give. Constants and the entry addresses of procedures sit in
slots of their own, stored at the start of the block, so that they are loaded and called like
variables. The address of a procedure's code is stored first, then its code is jumped over.

What is not known when an instruction is emitted (the size of a block, a jump forward, an entry
address) is patched into it later. A leading sign has no code.

Names that are not declared end the walk; a use that is legal but suspicious leaves a `Warning`.
Warnings are kept also where the walk fails.
-/

namespace PL0

/-- A use that is accepted but suspicious. -/
inductive Warning where
  /-- The name was already declared in this scope, with this slot. -/
  | redeclared (x : Ident) (slot : Nat)
  | readInto (x : Ident)
  | calling (x : Ident)
  | assigningTo (x : Ident)
  /-- The expression has a leading sign. -/
  | leadingSign (s : Sign) (e : Expr)
deriving DecidableEq

def Warning.message : Warning → String
  | redeclared x slot =>
    s!"index {x.index}: '{x.name}' already declared in this scope, reusing slot {slot}"
  | readInto x => s!"index {x.index}: reading into '{x.name}', which is not a variable"
  | calling x => s!"index {x.index}: calling '{x.name}', which is not a procedure"
  | assigningTo x => s!"index {x.index}: assigning to '{x.name}', which is not a variable"
  | leadingSign s e => s!"leading '{s.symbol}' on expression '{e.sexpr}' generates no code"

/-- Why a tree has no code. -/
inductive CodegenError where
  /-- The name is not visible where it is used. -/
  | undeclared (x : Ident)
  /-- No scope holds the channel. -/
  | missingChannel (name : String)
  /-- The buffer refused a patch, or a slot or an address is too great for an offset. -/
  | buffer (e : PatchError)
deriving DecidableEq, Repr, Inhabited

namespace Codegen

/-- What the walk has done so far, and the scopes open where it is. -/
structure State where
  code : Code
  env : Environment
  warnings : Array Warning

/-- The state before the walk: no code, no scope above the channels. -/
def State.initial : State := ⟨Code.empty, Environment.initial, #[]⟩

/-- A part of the walk. Its state outlives a failure. -/
abbrev Gen (α : Type) := EStateM CodegenError State α

/-- Emit an instruction and answer its address. -/
def emit (i : Instruction) : Gen Nat :=
  modifyGet fun ⟨code, env, warnings⟩ =>
    let (address, code) := code.emit i
    (address, ⟨code, env, warnings⟩)

/-- The address of the next instruction. -/
def nextAddress : Gen Nat := return (← get).code.nextAddress

/-- Overwrite the offset of an emitted instruction. -/
def patchOffset (address value : Nat) : Gen Unit := do
  let s ← get
  match s.code.patch address .offset value with
  | .ok code => set { s with code }
  | .error e => throw (.buffer e)

/-- Overwrite the offset of an emitted instruction by the next address. -/
def patchHere (address : Nat) : Gen Unit := do
  patchOffset address (← nextAddress)

/-- Emit an instruction whose offset is a slot or an address. -/
def emitAt (op : OpCode) (level offset : Nat) : Gen Nat :=
  match Code.offset? offset with
  | some n => emit (.make op level n)
  | none => throw (.buffer .tooLarge)

def warn (w : Warning) : Gen Unit := modify fun s => { s with warnings := s.warnings.push w }

def enterScope : Gen Unit := modify fun s => { s with env := s.env.enter }

def exitScope : Gen Unit := modify fun s => { s with env := s.env.exit }

/-- Declare a name in the innermost scope and answer its slot. -/
def declare (x : Ident) (kind : SymbolKind) (value : Option Int) : Gen Nat := do
  let s ← get
  let (d, env) := s.env.define x.name kind value
  set { s with env }
  match d with
  | .fresh symbol => return symbol.slot
  | .existing symbol =>
    warn (.redeclared x symbol.slot)
    return symbol.slot

/-- Where a name used in the program leads. -/
def resolve (x : Ident) : Gen Address := do
  match (← get).env.resolve x.name with
  | some a => return a
  | none => throw (.undeclared x)

/-- Where a channel is. -/
def channel (name : String) : Gen Address := do
  match (← get).env.resolve name with
  | some a => return a
  | none => throw (.missingChannel name)

/-- Emit an access to the cell that an address denotes. -/
def access (op : OpCode) (a : Address) : Gen Unit := discard (emitAt op a.level a.symbol.slot)

mutual

def expr : Expr → Gen Unit
  | .mk none ts => terms ts
  | .mk (some s) ts => do
    warn (.leadingSign s (.mk (some s) ts))
    terms ts

def terms : Terms → Gen Unit
  | .single t => term t
  | .join left op right => do
    terms left
    term right
    discard (emit (.apply (.arith op.arith)))

def term : Term → Gen Unit
  | .single f => factor f
  | .join left op right => do
    term left
    factor right
    discard (emit (.apply (.arith op.arith)))

def factor : Factor → Gen Unit
  | .ident x => do access .lod (← resolve x)
  | .number n => discard (emit (.make .lit 0 n.value))
  | .group e => expr e

end

def condition : Condition → Gen Unit
  | .odd e => do
    expr e
    discard (emit (.apply .odd))
  | .compare left r right => do
    expr left
    expr right
    discard (emit (.apply (.relation r)))

/-- Load the next value of the input channel into `x`. -/
def readTarget (input : Address) (x : Ident) : Gen Unit := do
  let a ← resolve x
  if a.symbol.kind ≠ .var then warn (.readInto x)
  access .lod input
  access .sto a

/-- Store the value of an expression to the output channel. -/
def writeValue (output : Address) (e : Expr) : Gen Unit := do
  expr e
  access .sto output

mutual

def statement : Statement → Gen Unit
  | .empty => return
  | .block body => statements body
  | .read targets => do
    let input ← channel readChannel
    targets.forM (readTarget input)
  | .write values => do
    let output ← channel writeChannel
    values.forM (writeValue output)
  | .call x => do
    let a ← resolve x
    if a.symbol.kind ≠ .procedure then warn (.calling x)
    access .cal a
  | .whileDo c body => do
    let top ← nextAddress
    condition c
    let exit ← emit (.make .jpc 0 0)
    statement body
    discard (emitAt .jmp 0 top)
    patchHere exit
  | .assign x e => do
    expr e
    let a ← resolve x
    if a.symbol.kind ≠ .var then warn (.assigningTo x)
    access .sto a
  | .ifThen c body => do
    condition c
    let skip ← emit (.make .jpc 0 0)
    statement body
    patchHere skip

def statements : List Statement → Gen Unit
  | [] => return
  | s :: ss => do
    statement s
    statements ss

end

/-- Declare a constant and store its value. -/
def constDecl (d : ConstDecl) : Gen Unit := do
  let slot ← declare d.name .const (some d.value.value)
  discard (emit (.make .lit 0 d.value.value))
  discard (emitAt .sto 0 slot)

def varDecl (x : Ident) : Gen Unit := discard (declare x .var none)

mutual

def block : Block → Gen Unit
  | .mk consts vars ps body => do
    enterScope
    let opening ← emit (.make .int 0 0)
    consts.forM constDecl
    vars.forM varDecl
    procedures ps
    statement body
    patchOffset opening (← get).env.current.size
    discard (emit .leave)
    exitScope

/-- Declare a procedure, store the address of its code, and emit that code behind a jump over it. -/
def procedure : Procedure → Gen Unit
  | .mk name body => do
    let slot ← declare name .procedure none
    let entry ← emit (.make .lit 0 0)
    discard (emitAt .sto 0 slot)
    let skip ← emit (.make .jmp 0 0)
    patchHere entry
    block body
    patchHere skip

def procedures : List Procedure → Gen Unit
  | [] => return
  | p :: ps => do
    procedure p
    procedures ps

end

end Codegen

/-- The code of a program, and the warnings met on the way. -/
def Program.compile (p : Program) : Except CodegenError (Array Instruction) × Array Warning :=
  match Codegen.block p.block |>.run Codegen.State.initial with
  | .ok _ s => (.ok s.code.instructions, s.warnings)
  | .error e s => (.error e, s.warnings)

end PL0
