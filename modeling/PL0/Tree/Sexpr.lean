import PL0.Tree

/-!
# `PL0.Tree.Sexpr` — trees in prefix form

Expressions, conditions and statements written in prefix form, in the order of evaluation: the sum
`1 + 2 * 3` is `(+ 1 (* 2 3))`. Parentheses of the source show as `(group e)`, a leading sign as
`(- e)`, and the empty statement as `()`.
-/

namespace PL0

/-! ## Expressions and conditions

An operator stands in front of its operands, in parentheses. A sum or product of more than two
operands leans to the left, as it is evaluated. -/

mutual

/-- The sign belongs to the whole sum, and shows as a form with one operand. -/
def Expr.sexpr : Expr → String
  | .mk none ts => ts.sexpr
  | .mk (some s) ts => s!"({s.symbol} {ts.sexpr})"

def Terms.sexpr : Terms → String
  | .single t => t.sexpr
  | .join l op r => s!"({op.symbol} {l.sexpr} {r.sexpr})"

def Term.sexpr : Term → String
  | .single f => f.sexpr
  | .join l op r => s!"({op.symbol} {l.sexpr} {r.sexpr})"

/-- Names and numbers stand without parentheses. -/
def Factor.sexpr : Factor → String
  | .ident x => x.name
  | .number n => toString n.value
  | .group e => s!"(group {e.sexpr})"

end

/-- The relation, or `odd`, in front of what is tested. -/
def Condition.sexpr : Condition → String
  | .odd e => s!"(odd {e.sexpr})"
  | .compare l r e => s!"({r.symbol} {l.sexpr} {e.sexpr})"

/-! ## Statements

Each statement is one form, headed by its reserved word. The empty one has nothing in it. -/

/-- The parts of a form, one blank between them. -/
def spaced (parts : List String) : String := String.intercalate " " parts

mutual

/-- An assignment is headed by its mark, since it has no reserved word. -/
def Statement.sexpr : Statement → String
  | .empty => "()"
  | .block body => s!"(begin {spaced (Statement.sexprs body)})"
  | .read targets => s!"(read {spaced (targets.map Ident.name)})"
  | .write values => s!"(write {spaced (values.map Expr.sexpr)})"
  | .call callee => s!"(call {callee.name})"
  | .whileDo c body => s!"(while {c.sexpr} {body.sexpr})"
  | .assign x e => s!"(:= {x.name} {e.sexpr})"
  | .ifThen c body => s!"(if {c.sexpr} {body.sexpr})"

/-- The forms of the statements of a list, empty ones included. -/
def Statement.sexprs : List Statement → List String
  | [] => []
  | s :: ss => s.sexpr :: Statement.sexprs ss

end

/-- The statement of the outermost block in prefix form; nothing where it is the empty statement. -/
def Program.sexpr (p : Program) : String :=
  if p.block.body.isEmpty then "" else p.block.body.sexpr

end PL0
