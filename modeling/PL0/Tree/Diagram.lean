import PL0.Tree

/-!
# `PL0.Tree.Diagram` — trees as drawings

A syntax tree is drawn as a tree of labels, `Diagram`: a node for each phrase, and leaves for the
names, numbers, operators and those words and marks of the source that the syntax tree leaves out
(`while`, `do`, `:=` and so on). Empty statements of a `begin` are not drawn.

`Diagram.entries` numbers the nodes from 0 in pre-order, and `Diagram.render` writes the numbered
nodes and then the edges as a Graphviz `digraph`.
-/

namespace PL0

/-- A tree of labels. -/
inductive Diagram where
  | node (label : String) (children : List Diagram)

namespace Diagram

/-- A node without children. -/
def leaf (label : String) : Diagram := node label []

/-- A numbered node: the number of its parent, where it has one, and its label. -/
structure Entry where
  id : Nat
  parent : Option Nat
  label : String
deriving DecidableEq, Repr, Inhabited

mutual

/-- The nodes in pre-order, numbered from `id`. -/
def entries (parent : Option Nat) (id : Nat) : Diagram → List Entry
  | node label children => ⟨id, parent, label⟩ :: entriesOf id (id + 1) children

/-- The nodes of the children of `parent`, in order, numbered from `id`. -/
def entriesOf (parent : Nat) (id : Nat) : List Diagram → List Entry
  | [] => []
  | d :: ds =>
    let es := entries (some parent) id d
    es ++ entriesOf parent (id + es.length) ds

end

/-- A label as it stands between quotes: each quote gets a backslash. -/
def escape (label : String) : String :=
  String.join (label.toList.map fun c => if c = '"' then "\\\"" else String.singleton c)

/-- The line that introduces a node. -/
def Entry.nodeLine (e : Entry) : String := s!"{e.id} [label=\"{escape e.label}\"];\n"

/-- The line of the edge to a node, if the node has a parent. -/
def Entry.edgeLine (e : Entry) : String :=
  match e.parent with
  | some p => s!"{p}->{e.id};\n"
  | none => ""

/-- The drawing as Graphviz text: all nodes, then all edges. -/
def render (d : Diagram) : String :=
  let es := d.entries none 0
  "digraph ast \x7b\n" ++ String.join (es.map Entry.nodeLine) ++
    String.join (es.map Entry.edgeLine) ++ "\x7d\n"

end Diagram

open Diagram (node leaf)

def Ident.diagram (x : Ident) : Diagram := leaf s!"Id {x.name}"

def Numeral.diagram (n : Numeral) : Diagram := leaf s!"Num {n.value}"

mutual

def Expr.diagram : Expr → Diagram
  | .mk none ts => node "Expr" ts.diagrams
  | .mk (some s) ts => node "Expr" (leaf s!"UnaryOp {s.symbol}" :: ts.diagrams)

/-- The terms, with their operators between them. -/
def Terms.diagrams : Terms → List Diagram
  | .single t => [node "Term" t.diagrams]
  | .join l op r => l.diagrams ++ [leaf s!"BinaryOp {op.symbol}", node "Term" r.diagrams]

/-- The factors, with their operators between them. -/
def Term.diagrams : Term → List Diagram
  | .single f => [f.diagram]
  | .join l op r => l.diagrams ++ [leaf s!"BinaryOp {op.symbol}", r.diagram]

def Factor.diagram : Factor → Diagram
  | .ident x => node "Factor" [x.diagram]
  | .number n => node "Factor" [n.diagram]
  | .group e => node "Factor" [e.diagram]

end

def Condition.diagram : Condition → Diagram
  | .odd e => node "CondExpr" [leaf "UnaryOp odd", e.diagram]
  | .compare l r e => node "CondExpr" [l.diagram, leaf s!"CondOp {r.symbol}", e.diagram]

mutual

/-- The drawing of a statement: none for the empty statement, one for any other. -/
def Statement.diagrams : Statement → List Diagram
  | .empty => []
  | .block body => [node "Stmts" (Statement.diagramsOf body)]
  | .read targets => [node "ReadStmt" (leaf "read" :: targets.map Ident.diagram)]
  | .write values => [node "WriteStmt" (leaf "write" :: values.map Expr.diagram)]
  | .call callee => [node "CallStmt" [leaf "call", callee.diagram]]
  | .whileDo c body =>
    [node "WhileStmt" ([leaf "while", c.diagram, leaf "do"] ++ body.diagrams)]
  | .assign x e => [node "AssignStmt" [x.diagram, leaf ":=", e.diagram]]
  | .ifThen c body => [node "CondStmt" ([leaf "if", c.diagram, leaf "then"] ++ body.diagrams)]

def Statement.diagramsOf : List Statement → List Diagram
  | [] => []
  | s :: ss => s.diagrams ++ Statement.diagramsOf ss

end

/-- A group of declarations under one node, not drawn where there are none. -/
def Diagram.group (label : String) : List Diagram → List Diagram
  | [] => []
  | ds => [node label ds]

def ConstDecl.diagram (d : ConstDecl) : Diagram :=
  node "ConstDecl" [d.name.diagram, leaf "=", d.value.diagram]

mutual

def Block.diagram : Block → Diagram
  | .mk consts vars procedures body =>
    node "Subprogram"
      (Diagram.group "ConstDecls" (consts.map ConstDecl.diagram) ++
        Diagram.group "VarDecls" (vars.map Ident.diagram) ++
        Diagram.group "ProcedureDecls" (Procedure.diagrams procedures) ++ body.diagrams)

def Procedure.diagram : Procedure → Diagram
  | .mk name block =>
    node "ProcedureDecl" [node "ProcedureHeader" [name.diagram, leaf ";"], block.diagram]

def Procedure.diagrams : List Procedure → List Diagram
  | [] => []
  | p :: ps => p.diagram :: Procedure.diagrams ps

end

def Program.diagram (p : Program) : Diagram := node "Program" [p.block.diagram]

end PL0
