import PL0.Tree.Printer

/-!
# `Tree.Printing` — the printer draws the diagram

The walk of `PL0.Tree.Printer` numbers the nodes as it meets them and writes each into its buffers.
`Printer.draw` walks a diagram instead of a tree, and every part of the walk over the tree is the
walk over the diagram of what it meets (`Printer.expr_eq` and its like); a number handed on too
early or too late would show here. The walk over a diagram adds its entries (`Printer.run_draw`), so
the text of a program is its diagram rendered (`Program.dot_eq_render`).
-/

namespace PL0

namespace Printer

mutual

/-- Draw a diagram below `parent`. -/
def draw (parent : Option Nat) : Diagram → StateM Printer Unit
  | .node label ds => do
    let id ← node parent label
    drawAll id ds

/-- Draw diagrams below `parent`, one after the other. -/
def drawAll (parent : Nat) : List Diagram → StateM Printer Unit
  | [] => return
  | d :: ds => do
    draw (some parent) d
    drawAll parent ds

end

/-! ## The walk over a tree is the walk over its diagram

One equation for each category of the tree, by induction along it. Both sides are sequences of
actions, so the proofs use no more than the equations of the two walks and the laws of sequencing: a
node that one of them introduced earlier, later or below another parent would leave two different
sequences. -/

/-- Diagrams in a row are drawn in a row. -/
theorem drawAll_append (parent : Nat) (ds es : List Diagram) :
    drawAll parent (ds ++ es) = (drawAll parent ds >>= fun _ => drawAll parent es) := by
  induction ds with
  | nil => simp [drawAll]
  | cons d ds ih => simp [drawAll, ih]

theorem drawAll_singleton (parent : Nat) (d : Diagram) :
    drawAll parent [d] = draw (some parent) d := by
  simp [drawAll]

/-- A loop over phrases draws their diagrams in turn, if its body draws the diagram of a phrase. -/
theorem forM_eq_drawAll {α : Type} {item : Nat → α → StateM Printer Unit} {diagram : α → Diagram}
    (h : ∀ parent x, item parent x = draw (some parent) (diagram x)) (parent : Nat) (xs : List α) :
    forM xs (item parent) = drawAll parent (xs.map diagram) := by
  induction xs with
  | nil => rfl
  | cons x xs ih =>
    rw [List.map_cons, drawAll, ← h, ← ih]
    rfl

/-- A leaf is a diagram without children. -/
theorem leaf_eq (parent : Nat) (label : String) :
    leaf parent label = draw (some parent) (Diagram.leaf label) := rfl

theorem ident_eq (parent : Nat) (x : Ident) : ident parent x = draw (some parent) x.diagram := rfl

theorem number_eq (parent : Nat) (n : Numeral) :
    number parent n = draw (some parent) n.diagram := rfl

mutual

/-- An expression is one node. Its sign, if it has one, is the first leaf below it. -/
theorem expr_eq (parent : Nat) (e : Expr) : expr parent e = draw (some parent) e.diagram := by
  cases e with
  | mk sign ts =>
    cases sign with
    | none => simp [expr, Expr.diagram, draw, terms_eq _ ts]
    | some s => simp [expr, Expr.diagram, draw, drawAll, leaf_eq, terms_eq _ ts]

/-- A sum has no node of its own: terms and operators go below the node of the expression. -/
theorem terms_eq (parent : Nat) (ts : Terms) : terms parent ts = drawAll parent ts.diagrams := by
  cases ts with
  | single t => simp [terms, Terms.diagrams, drawAll_singleton, draw, factors_eq _ t]
  | join l op r =>
    simp [terms, Terms.diagrams, drawAll_append, drawAll, draw, leaf_eq, terms_eq _ l,
      factors_eq _ r]

/-- Likewise the factors of a product and its operators go below the node of their term. -/
theorem factors_eq (parent : Nat) (t : Term) : factors parent t = drawAll parent t.diagrams := by
  cases t with
  | single f => simp [factors, Term.diagrams, drawAll_singleton, factor_eq _ f]
  | join l op r =>
    simp [factors, Term.diagrams, drawAll_append, drawAll, leaf_eq, factors_eq _ l, factor_eq _ r]

/-- A factor is a node with one child, and with parentheses this child is an expression again. -/
theorem factor_eq (parent : Nat) (f : Factor) : factor parent f = draw (some parent) f.diagram := by
  cases f with
  | ident x => simp [factor, Factor.diagram, draw, drawAll_singleton, ident_eq]
  | number n => simp [factor, Factor.diagram, draw, drawAll_singleton, number_eq]
  | group e => simp [factor, Factor.diagram, draw, drawAll_singleton, expr_eq _ e]

end

/-- The operator of a condition is a leaf, in front for `odd` and in the middle for a relation. -/
theorem condition_eq (parent : Nat) (c : Condition) :
    condition parent c = draw (some parent) c.diagram := by
  cases c with
  | odd e => simp [condition, Condition.diagram, draw, drawAll, leaf_eq, expr_eq]
  | compare l r e => simp [condition, Condition.diagram, draw, drawAll, leaf_eq, expr_eq]

mutual

/-- A statement is one node or, if it is the empty one, none. So the walk over a statement is one
    over a list of diagrams. -/
theorem statement_eq (parent : Nat) (s : Statement) :
    statement parent s = drawAll parent s.diagrams := by
  cases s with
  | empty => rfl
  | block body =>
    simp [statement, Statement.diagrams, drawAll_singleton, draw, statements_eq _ body]
  | read targets =>
    simp [statement, Statement.diagrams, drawAll_singleton, draw, drawAll, leaf_eq,
      forM_eq_drawAll ident_eq]
  | write values =>
    simp [statement, Statement.diagrams, drawAll_singleton, draw, drawAll, leaf_eq,
      forM_eq_drawAll expr_eq]
  | call x =>
    simp [statement, Statement.diagrams, draw, drawAll, leaf_eq, ident_eq]
  | whileDo c body =>
    simp [statement, Statement.diagrams, draw, drawAll, leaf_eq, condition_eq,
      statement_eq _ body]
  | assign x e =>
    simp [statement, Statement.diagrams, draw, drawAll, leaf_eq, ident_eq, expr_eq]
  | ifThen c body =>
    simp [statement, Statement.diagrams, draw, drawAll, leaf_eq, condition_eq,
      statement_eq _ body]

/-- The statements of a `begin` in turn; the empty ones leave no gap in the numbers. -/
theorem statements_eq (parent : Nat) (ss : List Statement) :
    statements parent ss = drawAll parent (Statement.diagramsOf ss) := by
  cases ss with
  | nil => rfl
  | cons s ss =>
    simp [statements, Statement.diagramsOf, drawAll_append, statement_eq _ s, statements_eq _ ss]

end

theorem constDecl_eq (parent : Nat) (d : ConstDecl) :
    constDecl parent d = draw (some parent) d.diagram := by
  simp [constDecl, ConstDecl.diagram, draw, drawAll, leaf_eq, ident_eq, number_eq]

/-- Declarations have a node above them unless there are none. A number taken for a missing group
    would shift all numbers behind it. -/
theorem group_eq {decls : Nat → StateM Printer Unit} {ds : List Diagram}
    (h : ∀ id, decls id = drawAll id ds) (parent : Nat) (label : String) :
    group parent label ds.isEmpty decls = drawAll parent (Diagram.group label ds) := by
  cases ds with
  | nil => rfl
  | cons d ds => simp [group, Diagram.group, drawAll_singleton, draw, h]

/-- The walk asks whether there are procedures, the diagram whether there is anything to draw. -/
theorem isEmpty_diagrams (ps : List Procedure) :
    (Procedure.diagrams ps).isEmpty = ps.isEmpty := by
  cases ps <;> rfl

mutual

/-- The declarations come first, group by group, then the statement part. -/
theorem block_eq (parent : Nat) (b : Block) : block parent b = draw (some parent) b.diagram := by
  cases b with
  | mk consts vars ps body =>
    have hconsts := group_eq fun id => forM_eq_drawAll constDecl_eq id consts
    have hvars := group_eq fun id => forM_eq_drawAll ident_eq id vars
    have hps := group_eq fun id => procedures_eq id ps
    -- A group is missing if its diagrams are, but the walk goes by the declarations.
    rw [List.isEmpty_map] at hconsts hvars
    rw [isEmpty_diagrams] at hps
    simp [block, Block.diagram, draw, drawAll_append, hconsts, hvars, hps, statement_eq]

/-- Name and semicolon stand below the header of a procedure, its block beside the header. -/
theorem procedure_eq (parent : Nat) (p : Procedure) :
    procedure parent p = draw (some parent) p.diagram := by
  cases p with
  | mk x b =>
    simp [procedure, Procedure.diagram, draw, drawAll, leaf_eq, ident_eq, block_eq _ b]

theorem procedures_eq (parent : Nat) (ps : List Procedure) :
    procedures parent ps = drawAll parent (Procedure.diagrams ps) := by
  cases ps with
  | nil => rfl
  | cons p ps =>
    simp [procedures, Procedure.diagrams, drawAll, procedure_eq _ p, procedures_eq _ ps]

end

/-- The root is the one node without a parent. -/
theorem program_eq (p : Program) : program p = draw none p.diagram := by
  simp [program, Program.diagram, draw, drawAll_singleton, block_eq]

/-! ## The walk over a diagram adds its entries

`Diagram.entries` numbers a diagram from a given number on and has no state. What the walk leaves in
the buffers is what was there before, followed by the lines of these entries; the number to start
from is the next one of the printer. -/

/-- The printer when it has written the entries too. -/
def add (pr : Printer) (es : List Diagram.Entry) : Printer where
  nodes := pr.nodes ++ String.join (es.map Diagram.Entry.nodeLine)
  edges := pr.edges ++ String.join (es.map Diagram.Entry.edgeLine)
  next := pr.next + es.length

theorem add_nil (pr : Printer) : pr.add [] = pr := by
  simp [add]

/-- Entries are added in two goes as in one. -/
theorem add_append (pr : Printer) (es fs : List Diagram.Entry) :
    pr.add (es ++ fs) = (pr.add es).add fs := by
  simp [add, String.append_assoc, Nat.add_assoc]

/-- A node takes the next number and adds one entry to both buffers. -/
theorem run_node (pr : Printer) (parent : Option Nat) (label : String) :
    (node parent label).run pr = (pr.next, pr.add [⟨pr.next, parent, label⟩]) := by
  let e : Diagram.Entry := ⟨pr.next, parent, label⟩
  show (pr.next, Printer.mk (pr.nodes ++ e.nodeLine) (pr.edges ++ e.edgeLine) (pr.next + 1)) =
    (pr.next, pr.add [e])
  simp [add]

mutual

/-- **The walk adds the entries of the diagram**, numbered from the next number on. -/
theorem run_draw (pr : Printer) (parent : Option Nat) (d : Diagram) :
    (draw parent d).run pr = ((), pr.add (d.entries parent pr.next)) := by
  cases d with
  | node label ds =>
    rw [draw, StateT.run_bind, run_node]
    show (drawAll pr.next ds).run (pr.add [⟨pr.next, parent, label⟩]) = _
    -- The node itself has been added; the children go on from the number behind it.
    rw [run_drawAll, ← add_append]
    rfl

/-- The numbers of a diagram begin where those of the diagram in front end. -/
theorem run_drawAll (pr : Printer) (parent : Nat) (ds : List Diagram) :
    (drawAll parent ds).run pr = ((), pr.add (Diagram.entriesOf parent pr.next ds)) := by
  cases ds with
  | nil =>
    rw [Diagram.entriesOf, add_nil]
    rfl
  | cons d ds =>
    rw [drawAll, StateT.run_bind, run_draw]
    show (drawAll parent ds).run (pr.add (d.entries (some parent) pr.next)) = _
    rw [run_drawAll, ← add_append]
    rfl

end

end Printer

/-- **The text of a program is its diagram**, all nodes in pre-order and then their edges. -/
theorem Program.dot_eq_render (p : Program) : p.dot = p.diagram.render := by
  unfold dot Diagram.render
  rw [Printer.program_eq, Printer.run_draw]
  simp [Printer.add]

end PL0
