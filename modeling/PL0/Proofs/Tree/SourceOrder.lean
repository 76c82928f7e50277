import PL0.Proofs.Grammar.Rendering
import PL0.Proofs.Tree.Numbering

/-!
# `Tree.SourceOrder` — drawings in the order of the source

A diagram reads like the source: from left to right, its leaves show tokens in the order in which
the source has them. `Diagram.Draws d ts` says this of a diagram and the terminals of its phrase,
part by part: what the children of a node draw stands in the phrase in their order, marks and
reserved words may be left out between, and each name and each number is drawn.

Main statement: `Program.dot_preOrdered`. The text of a program is a tree numbered in pre-order
(`Tree.Numbering`), whose nodes have their children in the order of the source.
-/

namespace PL0

/-! ## What is drawn of a phrase

Most tokens are drawn as leaves, some with a word in front that says what they stand for.
Semicolons, commas, parentheses and most reserved words are not drawn at all; a name or a number
that was left out would be a defect, so these are never silent. -/

namespace Terminal

/-- A leaf with the label shows the token. -/
def Shows (label : String) : Terminal → Prop
  | mark m => label ∈ [m.spelling, s!"UnaryOp {m.spelling}", s!"BinaryOp {m.spelling}",
      s!"CondOp {m.spelling}"]
  | keyword k => label ∈ [k.spelling, s!"UnaryOp {k.spelling}"]
  | name x => label = s!"Id {x.name}"
  | number n => label = s!"Num {n.value}"

/-- The token need not be drawn. -/
def Silent : Terminal → Prop
  | mark _ | keyword _ => True
  | name _ | number _ => False

end Terminal

namespace Diagram

mutual

/-- **The diagram draws the phrase** with these terminals: a leaf shows its one token, any other
    node draws part by part. Only a `begin` with nothing but empty statements in it and a block
    without declarations and statement are phrases with nothing below them. -/
def Draws : Diagram → List Terminal → Prop
  | node label ds, ts =>
    (ds = [] ∧ ∃ t, ts = [t] ∧ t.Shows label) ∨
      (ds = [] → label ∈ ["Stmts", "Subprogram"]) ∧ DrawsAll ds ts

/-- The diagrams draw parts of the phrase, in their order; between the parts and around them are
    tokens that need not be drawn. -/
def DrawsAll : List Diagram → List Terminal → Prop
  | [], ts => ∀ t ∈ ts, t.Silent
  | d :: ds, ts => ∃ gap us vs, ts = gap ++ (us ++ vs) ∧ (∀ t ∈ gap, t.Silent) ∧ d.Draws us ∧
      DrawsAll ds vs

end

variable {label : String} {d : Diagram} {ds es : List Diagram} {t : Terminal}
  {ts us vs : List Terminal}

/-- A leaf draws its one token. -/
theorem draws_leaf (h : t.Shows label) : (leaf label).Draws [t] := .inl ⟨rfl, t, rfl, h⟩

/-- A node with something below it draws what its children draw. -/
theorem draws_node (hne : ds ≠ []) (h : DrawsAll ds ts) : (node label ds).Draws ts :=
  .inr ⟨fun hnil => absurd hnil hne, h⟩

theorem drawsAll_nil : DrawsAll [] [] := List.forall_mem_nil _

namespace DrawsAll

/-- A part in front, with nothing left out before it. -/
theorem cons (hd : d.Draws us) (hds : DrawsAll ds vs) : DrawsAll (d :: ds) (us ++ vs) :=
  ⟨[], us, vs, rfl, List.forall_mem_nil _, hd, hds⟩

theorem single (hd : d.Draws ts) : DrawsAll [d] ts := by
  have h := cons hd drawsAll_nil
  rwa [List.append_nil] at h

/-- A token in front that is drawn as a leaf. -/
theorem leaf (ht : t.Shows label) (hds : DrawsAll ds ts) :
    DrawsAll (.leaf label :: ds) (t :: ts) :=
  cons (draws_leaf ht) hds

/-- A token in front that is not drawn. -/
theorem skip (ht : t.Silent) (hds : DrawsAll ds ts) : DrawsAll ds (t :: ts) := by
  cases ds with
  | nil => exact List.forall_mem_cons.2 ⟨ht, hds⟩
  | cons d ds =>
    obtain ⟨gap, us, vs, rfl, hgap, hd, hds⟩ := hds
    exact ⟨t :: gap, us, vs, rfl, List.forall_mem_cons.2 ⟨ht, hgap⟩, hd, hds⟩

theorem skips (hts : ∀ t ∈ ts, t.Silent) (hds : DrawsAll ds us) : DrawsAll ds (ts ++ us) := by
  induction ts with
  | nil => exact hds
  | cons t ts ih =>
    obtain ⟨ht, hts⟩ := List.forall_mem_cons.1 hts
    exact skip ht (ih hts)

/-- Parts drawn one behind the other. Where the front ends with tokens that are not drawn, they go
    over to the first part behind. -/
theorem append (hds : DrawsAll ds ts) (hes : DrawsAll es us) :
    DrawsAll (ds ++ es) (ts ++ us) := by
  induction ds generalizing ts with
  -- Nothing drawn in front, but perhaps tokens left out.
  | nil => exact skips hds hes
  | cons d ds ih =>
    obtain ⟨gap, vs, ws, rfl, hgap, hd, hds⟩ := hds
    refine ⟨gap, vs, ws ++ us, ?_, hgap, hd, ih hds⟩
    simp only [List.append_assoc]

/-- A token at the end that is not drawn. -/
theorem close (ht : t.Silent) (hds : DrawsAll ds ts) : DrawsAll ds (ts ++ [t]) := by
  have h := append hds (skip ht drawsAll_nil)
  rwa [List.append_nil] at h

end DrawsAll

/-! ## Phrases with commas

A list of phrases is drawn as the diagrams of its phrases in a row. Commas, the parentheses around
and the word and semicolon of a section of declarations are left out. -/

section

variable {α : Type} {item : α → List Terminal} {diagram : α → Diagram}

/-- If each phrase is drawn, so is a list of them with commas between. -/
theorem drawsAll_listed (h : ∀ x, (diagram x).Draws (item x)) (xs : List α) :
    DrawsAll (xs.map diagram) (Terminal.listed item xs) := by
  cases xs with
  | nil => exact drawsAll_nil
  | cons x xs =>
    refine .cons (h x) ?_
    induction xs with
    | nil => exact drawsAll_nil
    | cons y ys ih => exact .skip trivial (.cons (h y) ih)

theorem drawsAll_grouped (h : ∀ x, (diagram x).Draws (item x)) (xs : List α) :
    DrawsAll (xs.map diagram) (Terminal.grouped item xs) :=
  .skip trivial (.close trivial (drawsAll_listed h xs))

/-- A section of declarations is one node above its phrases, or nothing. -/
theorem drawsAll_declared (h : ∀ x, (diagram x).Draws (item x)) (k : Keyword) (label : String)
    (xs : List α) : DrawsAll (group label (xs.map diagram)) (Terminal.declared k item xs) := by
  cases xs with
  | nil => exact drawsAll_nil
  | cons x xs =>
    refine .single (draws_node (List.cons_ne_nil _ _) ?_)
    exact .skip trivial (.close trivial (drawsAll_listed h (x :: xs)))

end

end Diagram

open Diagram

/-! ## Trees

By induction on the tree, each category in turn. The equations of `terminals` and of `diagram` go
through the parts of a node in the same order, so nothing has to be moved; what is not drawn is
skipped where it stands. -/

theorem Ident.draws (x : Ident) : x.diagram.Draws x.terminals :=
  draws_leaf (t := .name x) rfl

theorem Numeral.draws (n : Numeral) : n.diagram.Draws [.number n] :=
  draws_leaf (t := .number n) rfl

/-- A sign is drawn with a word in front, and so are the operators below. -/
theorem Sign.shows (s : Sign) : (Terminal.mark s.mark).Shows s!"UnaryOp {s.symbol}" := by
  cases s <;> simp [Terminal.Shows, mark, symbol, Mark.spelling]

theorem AddOp.shows (op : AddOp) : (Terminal.mark op.mark).Shows s!"BinaryOp {op.symbol}" := by
  cases op <;> simp [Terminal.Shows, mark, symbol, arith, Arith.symbol, Mark.spelling]

theorem MulOp.shows (op : MulOp) : (Terminal.mark op.mark).Shows s!"BinaryOp {op.symbol}" := by
  cases op <;> simp [Terminal.Shows, mark, symbol, arith, Arith.symbol, Mark.spelling]

theorem Relation.shows (r : Relation) : (Terminal.mark r.mark).Shows s!"CondOp {r.symbol}" := by
  cases r <;> simp [Terminal.Shows, mark, symbol, Mark.spelling]

theorem Term.diagrams_ne_nil (t : Term) : t.diagrams ≠ [] := by
  cases t <;> simp [diagrams]

/-- There is something below every expression and every term. -/
theorem Terms.diagrams_ne_nil (ts : Terms) : ts.diagrams ≠ [] := by
  cases ts <;> simp [diagrams]

mutual

/-- An expression is drawn in order: its sign, then its terms and operators. -/
theorem Expr.draws (e : Expr) : e.diagram.Draws e.terminals := by
  cases e with
  | mk sign ts =>
    have hts := Terms.drawsAll ts
    cases sign with
    | none => exact draws_node (Terms.diagrams_ne_nil ts) hts
    | some s => exact draws_node (List.cons_ne_nil _ _) (.leaf s.shows hts)

/-- The operator of a sum stands between its operands in the source and in the drawing. -/
theorem Terms.drawsAll (ts : Terms) : DrawsAll ts.diagrams ts.terminals := by
  cases ts with
  | single t => exact .single (draws_node (Term.diagrams_ne_nil t) (Term.drawsAll t))
  | join l op r =>
    refine .append (Terms.drawsAll l) (.leaf op.shows (.single ?_))
    exact draws_node (Term.diagrams_ne_nil r) (Term.drawsAll r)

theorem Term.drawsAll (t : Term) : DrawsAll t.diagrams t.terminals := by
  cases t with
  | single f => exact .single (Factor.draws f)
  | join l op r => exact .append (Term.drawsAll l) (.leaf op.shows (.single (Factor.draws r)))

/-- The parentheses of a group are left out, what is in them is not. -/
theorem Factor.draws (f : Factor) : f.diagram.Draws f.terminals := by
  cases f with
  | ident x => exact draws_node (List.cons_ne_nil _ _) (.single x.draws)
  | number n => exact draws_node (List.cons_ne_nil _ _) (.single n.draws)
  | group e =>
    refine draws_node (List.cons_ne_nil _ _) ?_
    exact .skip trivial (.close trivial (.single (Expr.draws e)))

end

/-- A relation is drawn between its operands, `odd` in front of the one it has. -/
theorem Condition.draws (c : Condition) : c.diagram.Draws c.terminals := by
  cases c with
  | odd e =>
    -- The one reserved word that is drawn as an operator.
    have hodd : (Terminal.keyword .oddKw).Shows "UnaryOp odd" :=
      List.mem_cons_of_mem _ (List.mem_singleton.2 rfl)
    exact draws_node (List.cons_ne_nil _ _) (.leaf hodd (.single e.draws))
  | compare l r e =>
    exact draws_node (List.cons_ne_nil _ _) (.cons l.draws (.leaf r.shows (.single e.draws)))

theorem Keyword.shows (k : Keyword) : (Terminal.keyword k).Shows k.spelling :=
  List.mem_cons_self ..

theorem Mark.shows (m : Mark) : (Terminal.mark m).Shows m.spelling := List.mem_cons_self ..

mutual

/-- A statement is drawn in order, its own words included. The empty one draws nothing, and has no
    tokens. -/
theorem Statement.drawsAll (s : Statement) : DrawsAll s.diagrams s.terminals := by
  cases s with
  | empty => exact drawsAll_nil
  | block body =>
    have hbody := Statement.drawsAll_terminalsOf body
    -- Perhaps all statements in between are empty, so this node may have nothing below it.
    refine .single (.inr ⟨fun _ => List.mem_cons_self .., ?_⟩)
    exact .skip trivial (.close trivial hbody)
  | read targets =>
    refine .single (draws_node (List.cons_ne_nil _ _) ?_)
    exact .leaf (Keyword.shows .readKw) (drawsAll_grouped Ident.draws targets)
  | write values =>
    refine .single (draws_node (List.cons_ne_nil _ _) ?_)
    exact .leaf (Keyword.shows .writeKw) (drawsAll_grouped Expr.draws values)
  | call x =>
    refine .single (draws_node (List.cons_ne_nil _ _) ?_)
    exact .leaf (Keyword.shows .callKw) (.single x.draws)
  | whileDo c body =>
    have hbody := DrawsAll.leaf (Keyword.shows .doKw) (Statement.drawsAll body)
    refine .single (draws_node (List.cons_ne_nil _ _) ?_)
    exact .leaf (Keyword.shows .whileKw) (.cons c.draws hbody)
  | assign x e =>
    refine .single (draws_node (List.cons_ne_nil _ _) ?_)
    exact .cons x.draws (.leaf (Mark.shows .assign) (.single e.draws))
  | ifThen c body =>
    have hbody := DrawsAll.leaf (Keyword.shows .thenKw) (Statement.drawsAll body)
    refine .single (draws_node (List.cons_ne_nil _ _) ?_)
    exact .leaf (Keyword.shows .ifKw) (.cons c.draws hbody)

/-- The statements of a list are drawn in turn. -/
theorem Statement.drawsAll_terminalsOf (ss : List Statement) :
    DrawsAll (Statement.diagramsOf ss) (Statement.terminalsOf ss) := by
  cases ss with
  | nil => exact drawsAll_nil
  | cons s ss => exact .append (Statement.drawsAll s) (Statement.drawsAll_terminalsBehind ss)

/-- The same with a semicolon in front of each. -/
theorem Statement.drawsAll_terminalsBehind (ss : List Statement) :
    DrawsAll (Statement.diagramsOf ss) (Statement.terminalsBehind ss) := by
  cases ss with
  | nil => exact drawsAll_nil
  | cons s ss =>
    exact .skip trivial (.append (Statement.drawsAll s) (Statement.drawsAll_terminalsBehind ss))

end

theorem ConstDecl.draws (d : ConstDecl) : d.diagram.Draws d.terminals :=
  draws_node (List.cons_ne_nil _ _)
    (.cons d.name.draws (.leaf (Mark.shows .equal) (.single d.value.draws)))

mutual

/-- The three sections of a block, then its statement. -/
theorem Block.draws (b : Block) : b.diagram.Draws b.terminals := by
  cases b with
  | mk consts vars ps body =>
    have hconsts := drawsAll_declared ConstDecl.draws .constKw "ConstDecls" consts
    have hvars := drawsAll_declared Ident.draws .varKw "VarDecls" vars
    have hps := Procedure.drawsAll_group ps
    refine .inr ⟨fun _ => by simp, ?_⟩
    rw [List.append_assoc, List.append_assoc]
    exact .append hconsts (.append hvars (.append hps body.drawsAll))

/-- A procedure is drawn as its header and its block. Of the two semicolons only that of the header
    is drawn. -/
theorem Procedure.draws (p : Procedure) : p.diagram.Draws p.terminals := by
  cases p with
  | mk x b =>
    have hheader : (node "ProcedureHeader" [x.diagram, leaf ";"]).Draws
        [.name x, .mark .semicolon] := by
      refine draws_node (List.cons_ne_nil _ _) (.cons x.draws ?_)
      exact .leaf (Mark.shows .semicolon) drawsAll_nil
    have hblock := DrawsAll.close (t := .mark .semicolon) trivial (.single (Block.draws b))
    exact draws_node (List.cons_ne_nil _ _) (.skip trivial (.cons hheader hblock))

/-- Procedures in turn. -/
theorem Procedure.drawsAll (ps : List Procedure) :
    DrawsAll (Procedure.diagrams ps) (Procedure.terminalsOf ps) := by
  cases ps with
  | nil => exact drawsAll_nil
  | cons p ps => exact .cons (Procedure.draws p) (Procedure.drawsAll ps)

theorem Procedure.drawsAll_group (ps : List Procedure) :
    DrawsAll (Diagram.group "ProcedureDecls" (Procedure.diagrams ps))
      (Procedure.terminalsOf ps) := by
  cases ps with
  | nil => exact drawsAll_nil
  | cons p ps =>
    refine .single (draws_node (List.cons_ne_nil _ _) ?_)
    exact .cons (Procedure.draws p) (Procedure.drawsAll ps)

end

/-- **A program's diagram draws the program.** -/
theorem Program.draws (p : Program) : p.diagram.Draws p.terminals :=
  draws_node (List.cons_ne_nil _ _) (.close trivial (.single p.block.draws))

/-- **The Graphviz text of a program is a tree numbered in pre-order.** It lists two or more nodes,
    numbered from 0 on, and then the edges, one to each node but 0, in order. What is below a node
    has the numbers right behind it. The tree shows the diagram of the program, children in order,
    and the diagram draws the program in the order of the source. -/
theorem Program.dot_preOrdered (p : Program) :
    ∃ g : Drawing, p.dot = g.text ∧ 2 ≤ g.labels.length ∧ g.PreOrdered ∧
      p.diagram.ShownAt g 0 ∧ p.diagram.Draws p.terminals := by
  refine ⟨p.diagram.drawing, ?_, ?_, p.diagram.rising_drawing.preOrdered,
    p.diagram.shownAt_drawing, p.draws⟩
  · rw [p.dot_eq_render, Diagram.render_eq_text]
  · obtain ⟨⟨consts, vars, ps, body⟩⟩ := p
    rw [Diagram.length_labels]
    simp [diagram, Block.diagram, Diagram.size, Diagram.sizes]

/-- The program `call p .` -/
example : Program.dot ⟨.mk [] [] [] (.call ⟨"p", 5⟩)⟩ =
    "digraph ast \x7b\n0 [label=\"Program\"];\n1 [label=\"Subprogram\"];\n" ++
      "2 [label=\"CallStmt\"];\n3 [label=\"call\"];\n4 [label=\"Id p\"];\n" ++
      "0->1;\n1->2;\n2->3;\n2->4;\n\x7d\n" := by
  decide +kernel

end PL0
