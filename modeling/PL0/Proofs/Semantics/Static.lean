import PL0.Proofs.Semantics.Clocked

/-!
# `Semantics.Static` — the block-structured meaning of a program

A name stands for the innermost declaration that is visible where the name is used: those in front
of that place, in the block around it and in the blocks around this one. Every activation of a block
has variables of its own, which are 0 at first, and constants, which have their values at first and
may be assigned to. A procedure sees the variables of the blocks around its declaration, whoever
calls it.

Main definition: `Program.evaluate`. No code, slot or address occurs in it.
-/

namespace PL0

open Clocked

/-! ## Declarations and what they mean -/

/-- A declaration. -/
inductive Decl where
  | const (d : ConstDecl)
  | var (x : Ident)
  | procedure (q : Procedure)

namespace Decl

def name : Decl → String
  | const d => d.name.name
  | var x => x.name
  | procedure q => q.name.name

/-- The value that a constant or a variable has at first. -/
def first? : Decl → Option Int
  | const d => some d.value.value
  | var _ => some 0
  | procedure _ => none

end Decl

namespace Block

/-- The constants and variables of a block, in order. -/
def data (b : Block) : List Decl := b.consts.map .const ++ b.vars.map .var

/-- The declarations of a block, in order. -/
def decls (b : Block) : List Decl := b.data ++ b.procedures.map .procedure

end Block

namespace Static

/-- The declarations visible at a place: of each block around it, innermost first, those that stand
    in front of the place. -/
abbrev Visible := List (List Decl)

/-- What a name means. -/
structure Meaning where
  /-- The number of blocks outward to the declaration. -/
  level : Nat
  decl : Decl
  /-- What is visible within the declaration, itself included. -/
  scope : Visible

/-- The declaration of a name, and all up to it. -/
def upTo (name : String) : List Decl → Option (List Decl × Decl)
  | [] => none
  | d :: ds =>
    if d.name = name then some ([d], d)
    else (upTo name ds).map fun (front, e) => (d :: front, e)

/-- The meaning of a name: its innermost visible declaration. -/
def Visible.meaning? (name : String) : Visible → Option Meaning
  | [] => none
  | ds :: outer =>
    match upTo name ds with
    | some (front, d) => some ⟨0, d, front :: outer⟩
    | none => (meaning? name outer).map fun m => { m with level := m.level + 1 }

/-! ## Activations -/

/-- The values of the constants and variables of one activation of a block. -/
abbrev Frame := String → Int

def Frame.set (F : Frame) (name : String) (v : Int) : Frame :=
  fun other => if other = name then v else F other

/-- The values at first. -/
def Frame.first (ds : List Decl) : Frame := fun name =>
  match upTo name ds with
  | some (_, d) => d.first?.getD 0
  | none => 0

/-- The activations of the blocks around the current place, innermost first, the input not yet taken
    and the output so far. -/
structure State where
  frames : List Frame
  input : List Int
  output : List Int

/-- The number of blocks outward to a constant or a variable. -/
def Visible.dataLevel? (visible : Visible) (name : String) : Option Nat :=
  match visible.meaning? name with
  | some m => if m.decl.first?.isSome then some m.level else none
  | none => none

/-- The value of a constant or variable. -/
def load (visible : Visible) (x : Ident) : EStateM Stop State Int := fun s =>
  match visible.dataLevel? x.name with
  | some k =>
    match s.frames[k]? with
    | some F => .ok (F x.name) s
    | none => .error .unbound s
  | none => .error .unbound s

/-- Assign to a constant or variable. -/
def store (visible : Visible) (x : Ident) (v : Int) : EStateM Stop State Unit := fun s =>
  match visible.dataLevel? x.name with
  | some k => .ok () { s with frames := s.frames.modify k (·.set x.name v) }
  | none => .error .unbound s

/-- Take a value of the input. -/
def read : EStateM Stop State Int := fun s =>
  match s.input with
  | [] => .error (.fault .inputExhausted) s
  | v :: input => .ok v { s with input }

def write (v : Int) : EStateM Stop State Unit := fun s =>
  .ok () { s with output := s.output ++ [v] }

/-- Evaluate where only the activations from the `k`-th one outward are in sight. -/
def outward (k : Nat) (c : Clocked State Unit) : Clocked State Unit := fun (n, s) =>
  let back (t : State) : State := { t with frames := s.frames.take k ++ t.frames }
  match c (n, { s with frames := s.frames.drop k }) with
  | .ok u (n, t) => .ok u (n, back t)
  | .error e (n, t) => .error e (n, back t)

/-- Call a procedure: run its block where it is declared. -/
def call (visible : Visible) (run : Visible → Block → Clocked State Unit) (f : Ident) :
    Clocked State Unit :=
  match visible.meaning? f.name with
  | some ⟨k, .procedure q, scope⟩ => do
    pause
    outward k (run scope q.block)
  | _ => throw .unbound

def access (visible : Visible) (run : Visible → Block → Clocked State Unit) : Access State where
  load := load visible
  store := store visible
  read := read
  write := write
  call := call visible run

/-- Begin an activation. -/
def enter (ds : List Decl) : EStateM Stop State Unit := fun s =>
  .ok () { s with frames := Frame.first ds :: s.frames }

/-- End the innermost activation. -/
def leave : EStateM Stop State Unit := fun s => .ok () { s with frames := s.frames.tail }

/-- Run a block, `outer` being visible around it. A constant takes two units of time at the start of
    an activation, a procedure three. -/
def run : (gas : Nat) → (outer : Visible) → Block → Clocked State Unit
  | 0, _, _ => throw .timeout
  | gas + 1, outer, b => do
    act (enter b.decls)
    each (fun _ => do pause; pause) b.consts
    each (fun _ => do pause; pause; pause) b.procedures
    b.body.exec (access (b.decls :: outer) (run gas)) gas
    act leave

end Static

/-- **The meaning of a program** on an input, at its stage after `t` actions. -/
def Program.evaluate (p : Program) (input : List Int) (t : Nat) :
    EStateM.Result Stop (Nat × Static.State) Unit :=
  Static.run (t + 1) [] p.block (t, ⟨[], input, []⟩)

end PL0
