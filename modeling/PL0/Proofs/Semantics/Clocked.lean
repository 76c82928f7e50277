import PL0.Machine
import PL0.Tree

/-!
# `Semantics.Clocked` — what statements do, one action at a time

Expressions and statements are evaluated over any state that offers an `Access`: it loads and stores
names, takes input, gives output and runs calls. What a name denotes and what a call does is up to
the access; the order of actions is fixed here.

Evaluation runs against a clock. Every elementary action takes one unit: a load, a store, a number,
an operator, a test, the way back to the start of a loop. Where the clock has run down evaluation
ends with the state reached so far, so that a clock of `t` shows the stage of the evaluation after
`t` actions, of endless loops too.
-/

namespace PL0

/-- Why evaluation ends early. -/
inductive Stop where
  /-- The clock has run down. -/
  | timeout
  | fault (f : Fault)
  /-- A call came upon a value that is no entry address. -/
  | stray (v : Int)
  /-- A name is not declared. -/
  | unbound
deriving DecidableEq, Repr

/-- Evaluation against a clock. The state is the time left and the state proper. -/
abbrev Clocked (σ α : Type) := EStateM Stop (Nat × σ) α

namespace Clocked

variable {σ α : Type}

/-- An elementary action. -/
def act (f : EStateM Stop σ α) : Clocked σ α := fun (n, s) =>
  match n with
  | 0 => .error .timeout (0, s)
  | n + 1 =>
    match f s with
    | .ok a s => .ok a (n, s)
    | .error e s => .error e (n, s)

/-- An action that takes time only. -/
def pause : Clocked σ Unit := act (pure ())

/-- A result or a fault. -/
def orFault (r : Except Fault α) : EStateM Stop σ α :=
  match r with
  | .ok a => pure a
  | .error f => throw (.fault f)

theorem act_zero (f : EStateM Stop σ α) (s : σ) : act f (0, s) = .error .timeout (0, s) := rfl

theorem act_succ_of_ok {f : EStateM Stop σ α} {s s' : σ} {a : α} (h : f s = .ok a s') (n : Nat) :
    act f (n + 1, s) = .ok a (n, s') := by
  simp only [act, h]

theorem act_succ_of_error {f : EStateM Stop σ α} {s s' : σ} {e : Stop} (h : f s = .error e s')
    (n : Nat) : act f (n + 1, s) = .error e (n, s') := by
  simp only [act, h]

theorem bind_of_ok {β : Type} {c : Clocked σ α} {s s' : Nat × σ} {a : α} (h : c s = .ok a s')
    (g : α → Clocked σ β) : (c >>= g) s = g a s' := by
  show EStateM.bind c g s = _
  simp only [EStateM.bind, h]

theorem bind_of_error {β : Type} {c : Clocked σ α} {s s' : Nat × σ} {e : Stop}
    (h : c s = .error e s') (g : α → Clocked σ β) : (c >>= g) s = .error e s' := by
  show EStateM.bind c g s = _
  simp only [EStateM.bind, h]

/-- For each element in order. -/
def each (f : α → Clocked σ Unit) : List α → Clocked σ Unit
  | [] => return
  | x :: xs => do
    f x
    each f xs

/-- As long as the test does not answer 0. There are at most as many rounds as `gas`; a clock of
    less than `gas` runs down before that. -/
def loop (test : Clocked σ Int) (body : Clocked σ Unit) : (gas : Nat) → Clocked σ Unit
  | 0 => throw .timeout
  | gas + 1 => do
    let v ← test
    pause
    if v = 0 then return
    body
    pause
    loop test body gas

end Clocked

open Clocked

/-- What a state offers to the statements of a block. -/
structure Access (σ : Type) where
  load : Ident → EStateM Stop σ Int
  store : Ident → Int → EStateM Stop σ Unit
  /-- The next value of the input. -/
  read : EStateM Stop σ Int
  write : Int → EStateM Stop σ Unit
  call : Ident → Clocked σ Unit

variable {σ : Type}

mutual

/-- The value of an expression, from left to right; a leading sign has no effect. -/
def Expr.eval (io : Access σ) : Expr → Clocked σ Int
  | .mk _ ts => ts.eval io

def Terms.eval (io : Access σ) : Terms → Clocked σ Int
  | .single t => t.eval io
  | .join left op right => do
    let l ← left.eval io
    let r ← right.eval io
    act (orFault (op.arith.eval l r))

def Term.eval (io : Access σ) : Term → Clocked σ Int
  | .single f => f.eval io
  | .join left op right => do
    let l ← left.eval io
    let r ← right.eval io
    act (orFault (op.arith.eval l r))

def Factor.eval (io : Access σ) : Factor → Clocked σ Int
  | .ident x => act (io.load x)
  | .number n => act (pure n.value)
  | .group e => e.eval io

end

/-- The value of a condition, 1 or 0. -/
def Condition.eval (io : Access σ) : Condition → Clocked σ Int
  | .odd e => do
    let v ← e.eval io
    act (pure (Word.ofBool (v % 2 != 0)))
  | .compare left rel right => do
    let l ← left.eval io
    let r ← right.eval io
    act (pure (Word.ofBool (rel.holds l r)))

mutual

/-- What a statement does. `gas` bounds the rounds of its loops. -/
def Statement.exec (io : Access σ) (gas : Nat) : Statement → Clocked σ Unit
  | .empty => return
  | .block body => Statement.execAll io gas body
  | .read targets => each (fun x => do
      let v ← act io.read
      act (io.store x v)) targets
  | .write values => each (fun e => do
      let v ← e.eval io
      act (io.write v)) values
  | .call x => io.call x
  | .whileDo c body => loop (c.eval io) (body.exec io gas) gas
  | .assign x e => do
    let v ← e.eval io
    act (io.store x v)
  | .ifThen c body => do
    let v ← c.eval io
    pause
    if v = 0 then return
    body.exec io gas

/-- One statement after the other. -/
def Statement.execAll (io : Access σ) (gas : Nat) : List Statement → Clocked σ Unit
  | [] => return
  | s :: ss => do
    s.exec io gas
    Statement.execAll io gas ss

end

end PL0
