import PL0.Proofs.Codegen.Names
import PL0.Proofs.Numeral
import PL0.Proofs.Tree.Numbering

/-!
# `Tree.Labels` — what stands on the nodes of a drawing

The labels of a program's diagram are the kinds of its phrases, words and marks of the source, its
numbers and its names. The first three do not depend on who writes the program: a property that
holds of them (`Diagram.Neutral`) holds of all labels exactly if it holds of the names
(`Program.forall_diagram`).
-/

namespace PL0

namespace Diagram

variable {P : String → Prop} {label : String} {ds es : List Diagram}

mutual

/-- Every label of the diagram has the property. -/
def Forall (P : String → Prop) : Diagram → Prop
  | node label ds => P label ∧ ForallAll P ds

/-- Every label of each of the diagrams has it. -/
def ForallAll (P : String → Prop) : List Diagram → Prop
  | [] => True
  | d :: ds => d.Forall P ∧ ForallAll P ds

end

@[simp]
theorem forall_node : (node label ds).Forall P ↔ P label ∧ ForallAll P ds := Iff.rfl

@[simp]
theorem forall_leaf : (leaf label).Forall P ↔ P label := by
  simp [leaf, ForallAll]

@[simp]
theorem forallAll_nil : ForallAll P [] ↔ True := Iff.rfl

@[simp]
theorem forallAll_cons {d : Diagram} : ForallAll P (d :: ds) ↔ d.Forall P ∧ ForallAll P ds :=
  Iff.rfl

/-- Diagrams in a row have all their labels from one part or the other. -/
@[simp]
theorem forallAll_append : ForallAll P (ds ++ es) ↔ ForallAll P ds ∧ ForallAll P es := by
  induction ds with
  | nil => simp
  | cons d ds ih => simp [ih, and_assoc]

/-- For a list of phrases of one kind it is enough to look at each of them. -/
theorem forallAll_iff : ForallAll P ds ↔ ∀ d ∈ ds, d.Forall P := by
  induction ds with
  | nil => simp
  | cons d ds ih => simp [ih]

/-- A group has a label of its own if there is something in it. -/
theorem forallAll_group (h : P label) : ForallAll P (group label ds) ↔ ForallAll P ds := by
  cases ds with
  | nil => rfl
  | cons d ds => simp [group, h]

mutual

/-- The entries carry the labels of the diagram and no others. Numbers and parents do not matter
    here. -/
theorem forall_entries (parent : Option Nat) (i : Nat) (d : Diagram) :
    (∀ e ∈ d.entries parent i, P e.label) ↔ d.Forall P := by
  cases d with
  | node label ds => rw [entries, List.forall_mem_cons, forall_entriesOf, forall_node]

/-- Likewise for diagrams numbered one behind the other. -/
theorem forall_entriesOf (p i : Nat) (ds : List Diagram) :
    (∀ e ∈ entriesOf p i ds, P e.label) ↔ ForallAll P ds := by
  cases ds with
  | nil => simp [entriesOf]
  | cons d ds =>
    rw [entriesOf_cons, List.forall_mem_append, forall_entries, forall_entriesOf, forallAll_cons]

end

/-- The labels of the drawing are those of the diagram. -/
theorem forall_labels (d : Diagram) : (∀ l ∈ d.drawing.labels, P l) ↔ d.Forall P := by
  rw [drawing, List.forall_mem_map, forall_entries]

/-- The kinds of phrases, and the words and marks that are drawn. -/
def vocabulary : List String :=
  ["Program", "Subprogram", "ConstDecls", "ConstDecl", "VarDecls", "ProcedureDecls",
    "ProcedureDecl", "ProcedureHeader", "Stmts", "ReadStmt", "WriteStmt", "CallStmt", "WhileStmt",
    "AssignStmt", "CondStmt", "CondExpr", "Expr", "Term", "Factor", "=", ";", ":=", "read", "write",
    "call", "while", "do", "if", "then", "UnaryOp odd", "UnaryOp +", "UnaryOp -", "BinaryOp +",
    "BinaryOp -", "BinaryOp *", "BinaryOp /", "CondOp =", "CondOp #", "CondOp <", "CondOp <=",
    "CondOp >", "CondOp >="]

/-- The property holds of every label that is not a name. -/
structure Neutral (P : String → Prop) : Prop where
  words : ∀ l ∈ vocabulary, P l
  numbers : ∀ v : Int, P s!"Num {v}"

/-- What follows from a neutral property label by label is neutral. -/
theorem Neutral.mono {Q : String → Prop} (h : Neutral P) (hPQ : ∀ l, P l → Q l) : Neutral Q where
  words l hl := hPQ l (h.words l hl)
  numbers v := hPQ _ (h.numbers v)

/-- A character may be in names only. -/
theorem neutral_notMem {c : Char}
    (hwords : (vocabulary.all fun l => !l.toList.contains c) = true) (hnum : c ∉ "Num ".toList)
    (hc : Decimal.isSignOrDigit c = false) : Neutral fun l => c ∉ l.toList where
  words l hl := by simpa using List.all_eq_true.1 hwords l hl
  numbers v := by
    -- A number is written with digits and perhaps a sign, behind a fixed word.
    show c ∉ ("Num " ++ toString v).toList
    rw [String.toList_append, List.mem_append, not_or]
    exact ⟨hnum, Decimal.not_mem_toString hc v⟩

end Diagram

open Diagram

/-! ## Labels of trees

For each category of the tree, all labels have the property exactly if the names of the phrase have
it. The labels that the phrase adds are in `vocabulary`, which `decide` checks one by one; they are
named in front of each case, so that the case is closed by taking diagram and names apart alike. -/

section

variable {P : String → Prop}

/-- The property holds of the label of the name. -/
def Ident.LabelHas (P : String → Prop) (x : Ident) : Prop := P s!"Id {x.name}"

/-- Names are the labels that a program is free to choose. -/
theorem Ident.forall_diagram (x : Ident) : x.diagram.Forall P ↔ x.LabelHas P := forall_leaf

/-- A number has a label that is no name, so nothing is asked of it. -/
theorem Numeral.forall_diagram (h : Neutral P) (n : Numeral) : n.diagram.Forall P :=
  forall_leaf.2 (h.numbers n.value)

/-- The label of an operator tells in front which kind of operator it is: `+` as a sign and `+`
    between terms are two labels. -/
theorem Sign.label_mem (s : Sign) : s!"UnaryOp {s.symbol}" ∈ vocabulary := by
  cases s <;> decide

theorem AddOp.label_mem (op : AddOp) : s!"BinaryOp {op.symbol}" ∈ vocabulary := by
  cases op <;> decide

theorem MulOp.label_mem (op : MulOp) : s!"BinaryOp {op.symbol}" ∈ vocabulary := by
  cases op <;> decide

theorem Relation.label_mem (r : Relation) : s!"CondOp {r.symbol}" ∈ vocabulary := by
  cases r <;> decide

/-- The targets of a `read`, or the variables of a block. -/
theorem Ident.forallAll_map (xs : List Ident) :
    ForallAll P (xs.map Ident.diagram) ↔ ∀ x ∈ xs, x.LabelHas P := by
  simp [forallAll_iff, Ident.forall_diagram]

mutual

/-- **Expressions.** The names of an expression are those of its terms; the sign is a label of the
    vocabulary. -/
theorem Expr.forall_diagram (h : Neutral P) (e : Expr) :
    e.diagram.Forall P ↔ ∀ x ∈ e.idents, x.LabelHas P := by
  cases e with
  | mk sign ts =>
    have hlabel : P "Expr" := h.words _ (by decide)
    have hts := Terms.forall_diagrams h ts
    cases sign with
    | none => simp [Expr.diagram, Expr.idents, hlabel, hts]
    | some s => simp [Expr.diagram, Expr.idents, hlabel, h.words _ s.label_mem, hts]

/-- Both operands of a sum, each below a node of its own kind. -/
theorem Terms.forall_diagrams (h : Neutral P) (ts : Terms) :
    ForallAll P ts.diagrams ↔ ∀ x ∈ ts.idents, x.LabelHas P := by
  have hlabel : P "Term" := h.words _ (by decide)
  cases ts with
  | single t => simp [Terms.diagrams, Terms.idents, hlabel, Term.forall_diagrams h t]
  | join l op r =>
    rw [Terms.idents, List.forall_mem_append, ← Terms.forall_diagrams h l,
      ← Term.forall_diagrams h r]
    simp [Terms.diagrams, hlabel, h.words _ op.label_mem]

theorem Term.forall_diagrams (h : Neutral P) (t : Term) :
    ForallAll P t.diagrams ↔ ∀ x ∈ t.idents, x.LabelHas P := by
  cases t with
  | single f => simp [Term.diagrams, Term.idents, Factor.forall_diagram h f]
  | join l op r =>
    rw [Term.idents, List.forall_mem_append, ← Term.forall_diagrams h l,
      ← Factor.forall_diagram h r]
    simp [Term.diagrams, h.words _ op.label_mem]

/-- A factor has the names of what stands below its node. -/
theorem Factor.forall_diagram (h : Neutral P) (f : Factor) :
    f.diagram.Forall P ↔ ∀ x ∈ f.idents, x.LabelHas P := by
  have hlabel : P "Factor" := h.words _ (by decide)
  cases f with
  | ident x => simp [Factor.diagram, Factor.idents, hlabel, Ident.forall_diagram]
  | number n => simp [Factor.diagram, Factor.idents, hlabel, n.forall_diagram h]
  | group e => simp [Factor.diagram, Factor.idents, hlabel, Expr.forall_diagram h e]

end

/-- The values of a `write`. -/
theorem Expr.forallAll_map (h : Neutral P) (es : List Expr) :
    ForallAll P (es.map Expr.diagram) ↔ ∀ x ∈ es.flatMap Expr.idents, x.LabelHas P := by
  induction es with
  | nil => simp
  | cons e es ih =>
    rw [List.map_cons, List.flatMap_cons, forallAll_cons, List.forall_mem_append,
      e.forall_diagram h, ih]

/-- The two operands of a comparison stand on both sides of its operator. -/
theorem Condition.forall_diagram (h : Neutral P) (c : Condition) :
    c.diagram.Forall P ↔ ∀ x ∈ c.idents, x.LabelHas P := by
  have hlabel : P "CondExpr" := h.words _ (by decide)
  have hodd : P "UnaryOp odd" := h.words _ (by decide)
  cases c with
  | odd e => simp [diagram, idents, hlabel, hodd, e.forall_diagram h]
  | compare l r e =>
    rw [idents, List.forall_mem_append, ← l.forall_diagram h, ← e.forall_diagram h]
    simp [diagram, hlabel, h.words _ r.label_mem]

mutual

/-- **Statements.** The words and marks drawn for a statement are labels of the vocabulary, too. -/
theorem Statement.forall_diagrams (h : Neutral P) (s : Statement) :
    ForallAll P s.diagrams ↔ ∀ x ∈ s.idents, x.LabelHas P := by
  have hword {l : String} (hl : l ∈ vocabulary) : P l := h.words l hl
  cases s with
  | empty => simp [Statement.diagrams, Statement.idents]
  | block body =>
    have hlabel : P "Stmts" := hword (by decide)
    simp [Statement.diagrams, Statement.idents, hlabel, Statement.forall_diagramsOf h body]
  | read targets =>
    have hlabel : P "ReadStmt" := hword (by decide)
    have hread : P "read" := hword (by decide)
    simp [Statement.diagrams, Statement.idents, hlabel, hread, Ident.forallAll_map]
  | write values =>
    have hlabel : P "WriteStmt" := hword (by decide)
    have hwrite : P "write" := hword (by decide)
    simp [Statement.diagrams, Statement.idents, hlabel, hwrite, Expr.forallAll_map h values]
  | call x =>
    have hlabel : P "CallStmt" := hword (by decide)
    have hcall : P "call" := hword (by decide)
    simp [Statement.diagrams, Statement.idents, hlabel, hcall, x.forall_diagram]
  | whileDo c body =>
    have hlabel : P "WhileStmt" := hword (by decide)
    have hwhile : P "while" := hword (by decide)
    have hdo : P "do" := hword (by decide)
    rw [Statement.idents, List.forall_mem_append, ← c.forall_diagram h,
      ← Statement.forall_diagrams h body]
    simp [Statement.diagrams, hlabel, hwhile, hdo]
  | assign x e =>
    have hlabel : P "AssignStmt" := hword (by decide)
    have hassign : P ":=" := hword (by decide)
    -- The target is drawn in front of the value, but listed behind its names.
    rw [Statement.idents, List.forall_mem_append, ← e.forall_diagram h, List.forall_mem_singleton,
      ← x.forall_diagram]
    simp [Statement.diagrams, hlabel, hassign, and_comm]
  | ifThen c body =>
    have hlabel : P "CondStmt" := hword (by decide)
    have hif : P "if" := hword (by decide)
    have hthen : P "then" := hword (by decide)
    rw [Statement.idents, List.forall_mem_append, ← c.forall_diagram h,
      ← Statement.forall_diagrams h body]
    simp [Statement.diagrams, hlabel, hif, hthen]

/-- An empty statement has neither labels nor names. -/
theorem Statement.forall_diagramsOf (h : Neutral P) (ss : List Statement) :
    ForallAll P (Statement.diagramsOf ss) ↔ ∀ x ∈ Statement.identsOf ss, x.LabelHas P := by
  cases ss with
  | nil => simp [Statement.diagramsOf, Statement.identsOf]
  | cons s ss =>
    rw [Statement.identsOf, List.forall_mem_append, ← Statement.forall_diagrams h s,
      ← Statement.forall_diagramsOf h ss]
    simp [Statement.diagramsOf]

end

/-- Only the names of constants count, not their values. -/
theorem ConstDecl.forallAll_map (h : Neutral P) (ds : List ConstDecl) :
    ForallAll P (ds.map ConstDecl.diagram) ↔ ∀ x ∈ ds.map ConstDecl.name, x.LabelHas P := by
  have hlabel : P "ConstDecl" := h.words _ (by decide)
  have hequal : P "=" := h.words _ (by decide)
  simp [forallAll_iff, ConstDecl.diagram, hlabel, hequal, Ident.forall_diagram,
    Numeral.forall_diagram h]

mutual

/-- **Blocks.** A group of declarations has a label if there is something in it, and this label is
    in the vocabulary. -/
theorem Block.forall_diagram (h : Neutral P) (b : Block) :
    b.diagram.Forall P ↔ ∀ x ∈ b.idents, x.LabelHas P := by
  cases b with
  | mk consts vars ps body =>
    have hlabel : P "Subprogram" := h.words _ (by decide)
    have hconsts : P "ConstDecls" := h.words _ (by decide)
    have hvars : P "VarDecls" := h.words _ (by decide)
    have hps : P "ProcedureDecls" := h.words _ (by decide)
    rw [Block.idents, List.forall_mem_append, List.forall_mem_append, List.forall_mem_append,
      ← ConstDecl.forallAll_map h, ← Ident.forallAll_map, ← Procedure.forall_diagrams h ps,
      ← body.forall_diagrams h]
    simp [Block.diagram, hlabel, forallAll_group hconsts, forallAll_group hvars,
      forallAll_group hps, and_assoc]

/-- The name of a procedure is drawn in its header and listed in front of those of its block. -/
theorem Procedure.forall_diagram (h : Neutral P) (p : Procedure) :
    p.diagram.Forall P ↔ ∀ x ∈ p.idents, x.LabelHas P := by
  cases p with
  | mk x b =>
    have hlabel : P "ProcedureDecl" := h.words _ (by decide)
    have hheader : P "ProcedureHeader" := h.words _ (by decide)
    have hsemicolon : P ";" := h.words _ (by decide)
    rw [Procedure.idents, List.forall_mem_cons, ← Block.forall_diagram h b, ← x.forall_diagram]
    simp [Procedure.diagram, hlabel, hheader, hsemicolon]

theorem Procedure.forall_diagrams (h : Neutral P) (ps : List Procedure) :
    ForallAll P (Procedure.diagrams ps) ↔ ∀ x ∈ Procedure.identsOf ps, x.LabelHas P := by
  cases ps with
  | nil => simp [Procedure.diagrams, Procedure.identsOf]
  | cons p ps =>
    rw [Procedure.identsOf, List.forall_mem_append, ← Procedure.forall_diagram h p,
      ← Procedure.forall_diagrams h ps]
    simp [Procedure.diagrams]

end

/-- **A property of all labels but names** is one of the names of the program. -/
theorem Program.forall_diagram (h : Neutral P) (p : Program) :
    p.diagram.Forall P ↔ ∀ x ∈ p.block.idents, x.LabelHas P := by
  have hlabel : P "Program" := h.words _ (by decide)
  rw [← p.block.forall_diagram h]
  simp [diagram, hlabel]

end

end PL0
