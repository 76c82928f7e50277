import PL0.Operator

/-!
# `PL0.Tree` — the syntax tree

Programs as trees. A program is a block; a block declares constants, variables and procedures, in
this order, and ends in one statement. A list of declarations that is absent is empty. The empty
statement is a statement of its own.

Sums and products are nested to the left, as they are evaluated: `Terms.join l op r` applies `op` to
the value of `l` and the value of the term `r`.

Each type has as many trees as programs need. A type with a place for each optional part, and with
one kind of operator for sums and products alike, would have more: a section of declarations that is
there but declares nothing, a sum with a `*` between its terms, a product with a `+` between its
factors. Such trees have no counterpart here. No program is read as one of them either, as a section
declares at least one name and each operator belongs to one level of an expression (`PL0.Grammar`).
-/

namespace PL0

/-- A name where it stands in the source. -/
structure Ident where
  name : String
  index : Nat
deriving DecidableEq, Repr, Inhabited

/-- A number where it stands in the source. -/
structure Numeral where
  value : Int
  index : Nat
deriving DecidableEq, Repr, Inhabited

mutual

/-- A sum with an optional leading sign. -/
inductive Expr where
  | mk (sign : Option Sign) (terms : Terms)

/-- One or more terms joined by `+` and `-`. -/
inductive Terms where
  | single (t : Term)
  | join (left : Terms) (op : AddOp) (right : Term)

/-- One or more factors joined by `*` and `/`. -/
inductive Term where
  | single (f : Factor)
  | join (left : Term) (op : MulOp) (right : Factor)

inductive Factor where
  | ident (x : Ident)
  | number (n : Numeral)
  /-- An expression in parentheses. -/
  | group (e : Expr)

end

deriving instance DecidableEq for Expr, Terms, Term, Factor

namespace Terms

/-- The leftmost term. -/
def first : Terms → Term
  | single t => t
  | join left _ _ => left.first

/-- The terms behind the leftmost one, each with the operator in front of it. -/
def rest : Terms → List (AddOp × Term)
  | single _ => []
  | join left op right => left.rest ++ [(op, right)]

end Terms

namespace Term

/-- The leftmost factor. -/
def first : Term → Factor
  | single f => f
  | join left _ _ => left.first

/-- The factors behind the leftmost one, each with the operator in front of it. -/
def rest : Term → List (MulOp × Factor)
  | single _ => []
  | join left op right => left.rest ++ [(op, right)]

end Term

/-- What a loop or a branch tests. -/
inductive Condition where
  | odd (e : Expr)
  | compare (left : Expr) (r : Relation) (right : Expr)
deriving DecidableEq

inductive Statement where
  /-- The statement that does nothing. -/
  | empty
  /-- The statements between `begin` and `end`. -/
  | block (body : List Statement)
  | read (targets : List Ident)
  | write (values : List Expr)
  | call (callee : Ident)
  | whileDo (condition : Condition) (body : Statement)
  | assign (target : Ident) (value : Expr)
  | ifThen (condition : Condition) (body : Statement)

/-- Whether the statement is the empty one. -/
def Statement.isEmpty : Statement → Bool
  | empty => true
  | _ => false

/-- A constant and its value. -/
structure ConstDecl where
  name : Ident
  value : Numeral
deriving DecidableEq, Repr, Inhabited

mutual

/-- Declarations and a statement. -/
inductive Block where
  | mk (consts : List ConstDecl) (vars : List Ident) (procedures : List Procedure)
      (body : Statement)

/-- A procedure and its block. -/
inductive Procedure where
  | mk (name : Ident) (block : Block)

end

namespace Block

def consts : Block → List ConstDecl
  | mk consts _ _ _ => consts

def vars : Block → List Ident
  | mk _ vars _ _ => vars

def procedures : Block → List Procedure
  | mk _ _ procedures _ => procedures

def body : Block → Statement
  | mk _ _ _ body => body

end Block

namespace Procedure

def name : Procedure → Ident
  | mk name _ => name

def block : Procedure → Block
  | mk _ block => block

end Procedure

/-- A whole program: its outermost block. -/
structure Program where
  block : Block

end PL0
