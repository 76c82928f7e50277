import PL0.Tree.Diagram

/-!
# `PL0.Tree.Printer` — programs as Graphviz text

One walk over the tree writes the text. A node is numbered when it is introduced, and its number is
handed to what is drawn below it; nodes and edges go to buffers of their own, so that the text lists
all nodes before the first edge. What the nodes and their labels are is said by `PL0.Tree.Diagram`.
-/

namespace PL0

/-- What has been written so far, and the number of the next node. -/
structure Printer where
  nodes : String := ""
  edges : String := ""
  next : Nat := 0

namespace Printer

/-- Introduce a node below its parent, if it has one, and answer its number. -/
def node (parent : Option Nat) (label : String) : StateM Printer Nat :=
  modifyGet fun ⟨nodes, edges, next⟩ =>
    let e : Diagram.Entry := ⟨next, parent, label⟩
    (next, ⟨nodes ++ e.nodeLine, edges ++ e.edgeLine, next + 1⟩)

/-- Introduce a node that has nothing below it. -/
def leaf (parent : Nat) (label : String) : StateM Printer Unit := discard (node (some parent) label)

/-- An identifier, labelled with its name. -/
def ident (parent : Nat) (x : Ident) : StateM Printer Unit := leaf parent s!"Id {x.name}"

/-- A number, labelled with its value. -/
def number (parent : Nat) (n : Numeral) : StateM Printer Unit := leaf parent s!"Num {n.value}"

/-! ## Expressions and conditions

An expression, a term and a factor have a node each, whatever they consist of; a chain of operators
is flat below its node, the operators between the operands. -/

mutual

/-- The sign, if there is one, comes before the terms. -/
def expr (parent : Nat) : Expr → StateM Printer Unit
  | .mk sign ts => do
    let id ← node (some parent) "Expr"
    if let some s := sign then leaf id s!"UnaryOp {s.symbol}"
    terms id ts

/-- The terms of a sum, with their operators between them. -/
def terms (parent : Nat) : Terms → StateM Printer Unit
  | .single t => do
    let id ← node (some parent) "Term"
    factors id t
  | .join l op r => do
    terms parent l
    leaf parent s!"BinaryOp {op.symbol}"
    let id ← node (some parent) "Term"
    factors id r

/-- The factors of a term, with their operators between them. -/
def factors (parent : Nat) : Term → StateM Printer Unit
  | .single f => factor parent f
  | .join l op r => do
    factors parent l
    leaf parent s!"BinaryOp {op.symbol}"
    factor parent r

/-- What a factor is shows below its node; parentheses are not drawn. -/
def factor (parent : Nat) : Factor → StateM Printer Unit
  | .ident x => do
    let id ← node (some parent) "Factor"
    ident id x
  | .number n => do
    let id ← node (some parent) "Factor"
    number id n
  | .group e => do
    let id ← node (some parent) "Factor"
    expr id e

end

/-- The relation stands between its operands, and `odd` in front of its one. -/
def condition (parent : Nat) : Condition → StateM Printer Unit
  | .odd e => do
    let id ← node (some parent) "CondExpr"
    leaf id "UnaryOp odd"
    expr id e
  | .compare l r e => do
    let id ← node (some parent) "CondExpr"
    expr id l
    leaf id s!"CondOp {r.symbol}"
    expr id e

/-! ## Statements -/

mutual

/-- The empty statement is not drawn. -/
def statement (parent : Nat) : Statement → StateM Printer Unit
  | .empty => return
  | .block body => do
    let id ← node (some parent) "Stmts"
    statements id body
  | .read targets => do
    let id ← node (some parent) "ReadStmt"
    leaf id "read"
    targets.forM (ident id)
  | .write values => do
    let id ← node (some parent) "WriteStmt"
    leaf id "write"
    values.forM (expr id)
  | .call callee => do
    let id ← node (some parent) "CallStmt"
    leaf id "call"
    ident id callee
  | .whileDo c body => do
    let id ← node (some parent) "WhileStmt"
    leaf id "while"
    condition id c
    leaf id "do"
    statement id body
  | .assign x e => do
    let id ← node (some parent) "AssignStmt"
    ident id x
    leaf id ":="
    expr id e
  | .ifThen c body => do
    let id ← node (some parent) "CondStmt"
    leaf id "if"
    condition id c
    leaf id "then"
    statement id body

/-- The statements of a list, one after the other below one node. -/
def statements (parent : Nat) : List Statement → StateM Printer Unit
  | [] => return
  | s :: ss => do
    statement parent s
    statements parent ss

end

/-! ## Blocks

Declarations are grouped by their kind. A block without declarations of a kind has no node for it.
-/

/-- A constant, its name and its value on either side of the mark. -/
def constDecl (parent : Nat) (d : ConstDecl) : StateM Printer Unit := do
  let id ← node (some parent) "ConstDecl"
  ident id d.name
  leaf id "="
  number id d.value

/-- A group of declarations under one node; nothing where there are none. -/
def group (parent : Nat) (label : String) (absent : Bool) (decls : Nat → StateM Printer Unit) :
    StateM Printer Unit := do
  unless absent do
    let id ← node (some parent) label
    decls id

mutual

/-- The groups stand in the order of the source, and the statement behind them. -/
def block (parent : Nat) : Block → StateM Printer Unit
  | .mk consts vars ps body => do
    let id ← node (some parent) "Subprogram"
    group id "ConstDecls" consts.isEmpty fun decls => consts.forM (constDecl decls)
    group id "VarDecls" vars.isEmpty fun decls => vars.forM (ident decls)
    group id "ProcedureDecls" ps.isEmpty fun decls => procedures decls ps
    statement id body

/-- The name of a procedure stands in its header, and its block behind the header. -/
def procedure (parent : Nat) : Procedure → StateM Printer Unit
  | .mk name body => do
    let id ← node (some parent) "ProcedureDecl"
    let header ← node (some id) "ProcedureHeader"
    ident header name
    leaf header ";"
    block id body

/-- The procedures of a list, one after the other below one node. -/
def procedures (parent : Nat) : List Procedure → StateM Printer Unit
  | [] => return
  | p :: ps => do
    procedure parent p
    procedures parent ps

end

/-- The root has no parent and therefore no edge. -/
def program (p : Program) : StateM Printer Unit := do
  let root ← node none "Program"
  block root p.block

end Printer

/-- The program as Graphviz text. -/
def Program.dot (p : Program) : String :=
  let (_, printer) := (Printer.program p).run {}
  "digraph ast \x7b\n" ++ printer.nodes ++ printer.edges ++ "\x7d\n"

end PL0
