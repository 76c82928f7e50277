/-!
# `PL0.Environment` — names and their slots

A scope gives each name declared in it a slot, in the order of first declaration. An environment is
a stack of scopes, innermost first, above a base scope that is never closed and holds the two
channels, `read_memory` in slot 0 and `write_memory` in slot 1. A name denotes the innermost scope
that declares it: the number of scopes to cross outward (`Address.level`) and the slot there.

Main statements: declaring a name a second time changes nothing (`Scope.declare_of_get?`), and
closing the scope just opened gives the old environment back (`Environment.exit_enter`).
-/

namespace PL0

/-- The channel that `read` loads from; the name is too long for an identifier. -/
def readChannel : String := "read_memory"

/-- The channel that `write` stores to; the name is too long for an identifier. -/
def writeChannel : String := "write_memory"

/-- What a name was declared as. -/
inductive SymbolKind where
  | const | var | procedure
deriving DecidableEq, Repr, Inhabited

/-- The word that declares names of this kind. -/
def SymbolKind.label : SymbolKind → String
  | const => "const"
  | var => "var"
  | procedure => "procedure"

/-- What a scope knows of a name. -/
structure Symbol where
  kind : SymbolKind
  /-- The declared value, of constants only. -/
  value : Option Int
  slot : Nat
deriving DecidableEq, Repr, Inhabited

/-- The names declared in one block, oldest first. -/
structure Scope where
  symbols : List (String × Symbol)
deriving DecidableEq, Repr, Inhabited

/-- What became of a declaration: a new symbol, or the one that the name already had. -/
inductive Declaration where
  | fresh (s : Symbol)
  | existing (s : Symbol)
deriving DecidableEq, Repr, Inhabited

/-- The symbol that stands for the name after its declaration. -/
def Declaration.symbol : Declaration → Symbol
  | fresh s => s
  | existing s => s

namespace Scope

/-- The scope without names. -/
def empty : Scope := ⟨[]⟩

/-- The scope of the two channels. -/
def channels : Scope := ⟨[(readChannel, ⟨.var, none, 0⟩), (writeChannel, ⟨.var, none, 1⟩)]⟩

/-- The number of names, which is the number of slots that a block of this scope needs. -/
def size (s : Scope) : Nat := s.symbols.length

def isEmpty (s : Scope) : Bool := s.symbols.isEmpty

def get? (s : Scope) (name : String) : Option Symbol := s.symbols.lookup name

/-- Give `name` the next free slot, unless it has one. -/
def declare (s : Scope) (name : String) (kind : SymbolKind) (value : Option Int) :
    Declaration × Scope :=
  match s.get? name with
  | some old => (.existing old, s)
  | none =>
    let new : Symbol := ⟨kind, value, s.size⟩
    (.fresh new, ⟨s.symbols ++ [(name, new)]⟩)

theorem declare_of_get? {s : Scope} {name : String} {old : Symbol} (h : s.get? name = some old)
    (kind : SymbolKind) (value : Option Int) : s.declare name kind value = (.existing old, s) := by
  simp [declare, h]

end Scope

/-- Where a name leads: how many scopes outward, and to which symbol. -/
structure Address where
  level : Nat
  symbol : Symbol
deriving DecidableEq, Repr, Inhabited

/-- The scopes open at a point of a program, innermost first, above the base scope. -/
structure Environment where
  scopes : List Scope
  base : Scope
deriving DecidableEq, Repr, Inhabited

namespace Environment

/-- The environment outside every block: only the channels. -/
def initial : Environment := ⟨[], Scope.channels⟩

/-- The number of scopes above the base scope. -/
def depth (env : Environment) : Nat := env.scopes.length

/-- All scopes, innermost first. -/
def frames (env : Environment) : List Scope := env.scopes ++ [env.base]

/-- The innermost scope. -/
def current (env : Environment) : Scope :=
  match env.scopes with
  | [] => env.base
  | s :: _ => s

/-- Open a scope. -/
def enter (env : Environment) : Environment := { env with scopes := Scope.empty :: env.scopes }

/-- The environment without its innermost scope; the base scope stays. -/
def exit (env : Environment) : Environment := { env with scopes := env.scopes.tail }

/-- Close the innermost scope and answer it, unless it is the base scope. -/
def exit? (env : Environment) : Option (Scope × Environment) :=
  match env.scopes with
  | [] => none
  | s :: _ => some (s, env.exit)

/-- Declare `name` in the innermost scope. -/
def define (env : Environment) (name : String) (kind : SymbolKind) (value : Option Int) :
    Declaration × Environment :=
  match env.scopes with
  | [] =>
    let (d, base) := env.base.declare name kind value
    (d, { env with base })
  | s :: scopes =>
    let (d, s) := s.declare name kind value
    (d, { env with scopes := s :: scopes })

/-- Search the scopes in order, the first of them at `level`. -/
def resolveIn (name : String) (level : Nat) : List Scope → Option Address
  | [] => none
  | s :: ss =>
    match s.get? name with
    | some symbol => some ⟨level, symbol⟩
    | none => resolveIn name (level + 1) ss

/-- Where `name` leads from here. -/
def resolve (env : Environment) (name : String) : Option Address := resolveIn name 0 env.frames

theorem exit_enter (env : Environment) : env.enter.exit = env := rfl

end Environment

end PL0
