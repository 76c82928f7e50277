import Mathlib
import PL0.Proofs.Tree.Prefix
import PL0.Tree.Diagram

/-!
# `Tree.Shapes` — the diagram shows the whole tree

A diagram says of a tree everything but where its names and numbers stand in the source, and but the
empty statements between `begin` and `end`, which are not drawn. `Program.compact` leaves the latter
out and `Program.unplaced` forgets the former.

Labels tell the kinds of nodes apart. Where parts may be missing, or there are several of them, what
is there is told by the label of the first one: a sign in front of a sum is no term
(`Terms.firstLabel_diagrams`), and no group of declarations is a statement
(`Statement.firstLabel_diagrams`). Operators stand between their operands, so that what is joined
last is what stands at the end. Main statement: `Program.diagram_eq_iff`.
-/

namespace PL0

open Diagram (node leaf)

/-! ## Trees without empty statements

What `compact` takes away is exactly what the diagram does not draw. The empty statement by itself
stays: as the body of a loop or of a block it cannot be taken for anything else. -/

mutual

/-- The statement without the empty ones in its blocks, at any depth. -/
def Statement.compact : Statement → Statement
  | .empty => .empty
  | .block body => .block (Statement.compactAll body)
  | .read targets => .read targets
  | .write values => .write values
  | .call x => .call x
  | .whileDo c body => .whileDo c body.compact
  | .assign x e => .assign x e
  | .ifThen c body => .ifThen c body.compact

/-- The statements that are not empty, each without the empty ones in its blocks. -/
def Statement.compactAll : List Statement → List Statement
  | [] => []
  | s :: ss =>
    if s.isEmpty then Statement.compactAll ss else s.compact :: Statement.compactAll ss

end

mutual

/-- The block without the empty statements, its procedures likewise. -/
def Block.compact : Block → Block
  | .mk consts vars ps body => .mk consts vars (Procedure.compactAll ps) body.compact

def Procedure.compact : Procedure → Procedure
  | .mk x b => .mk x b.compact

def Procedure.compactAll : List Procedure → List Procedure
  | [] => []
  | p :: ps => p.compact :: Procedure.compactAll ps

end

/-- The program without the empty statements between `begin` and `end`. -/
def Program.compact (p : Program) : Program := ⟨p.block.compact⟩

/-! ## Trees without their places

Two programs that are written with other blanks between their tokens differ in their indices only.
`unplaced` sets all of them to zero. -/

/-- The declaration with the indices of its name and number zero. -/
def ConstDecl.unplaced (d : ConstDecl) : ConstDecl := ⟨d.name.unplaced, d.value.unplaced⟩

mutual

/-- The block with every index zero, those of declarations included. -/
def Block.unplaced : Block → Block
  | .mk consts vars ps body =>
    .mk (consts.map ConstDecl.unplaced) (vars.map Ident.unplaced) (Procedure.unplacedAll ps)
      body.unplaced

def Procedure.unplaced : Procedure → Procedure
  | .mk x b => .mk x.unplaced b.unplaced

def Procedure.unplacedAll : List Procedure → List Procedure
  | [] => []
  | p :: ps => p.unplaced :: Procedure.unplacedAll ps

end

/-- The program with every index zero. -/
def Program.unplaced (p : Program) : Program := ⟨p.block.unplaced⟩

/-! ## The first label

A list of diagrams is put together from parts that may be missing. Whether the first part is there
shows in the label that the list begins with, if no part behind it can begin with the same one. -/

namespace Diagram

variable {label : String} {ds es ds' es' : List Diagram}

/-- What the first of some diagrams is labelled with. -/
def firstLabel : List Diagram → Option String
  | [] => none
  | node label _ :: _ => some label

theorem firstLabel_append (h : firstLabel ds = some label) :
    firstLabel (ds ++ es) = some label := by
  cases ds with
  | nil => cases h
  | cons d ds => cases d; exact h

/-- A list that does not begin with `other` does not begin with it behind another group either. -/
theorem firstLabel_group_append {other : String} (hother : label ≠ other)
    (h : firstLabel es ≠ some other) : firstLabel (group label ds ++ es) ≠ some other := by
  cases ds with
  | nil => exact h
  | cons d ds => exact fun heq => hother (Option.some.inj heq)

/-- A group in front of something else is told by its label. -/
theorem group_append_inj (h : firstLabel es ≠ some label) (h' : firstLabel es' ≠ some label) :
    group label ds ++ es = group label ds' ++ es' ↔ ds = ds' ∧ es = es' := by
  cases ds with
  | nil =>
    cases ds' with
    | nil => simp [group]
    | cons d' ds' =>
      have hne : es ≠ node label (d' :: ds') :: es' := by
        rintro rfl
        exact h rfl
      simp [group, hne]
  | cons d ds =>
    cases ds' with
    | nil =>
      have hne : node label (d :: ds) :: es ≠ es' := by
        rintro rfl
        exact h' rfl
      simp [group, hne]
    | cons d' ds' => simp [group, and_assoc]

/-- The first character of the label. -/
def initial : Diagram → Option Char
  | node label _ => label.toList.head?

/-- Leaves whose labels begin alike differ if the rest does. -/
theorem leaf_append_inj (front : String) {s t : String} :
    leaf (front ++ s) = leaf (front ++ t) ↔ s = t := by
  simp [leaf, String.append_right_inj]

/-- Behind operands stand an operator and one more operand. -/
theorem append_pair_inj {a b a' b' : Diagram} :
    ds ++ [a, b] = ds' ++ [a', b'] ↔ ds = ds' ∧ a = a' ∧ b = b' := by
  constructor
  · intro h
    obtain ⟨hfront, hback⟩ := List.append_inj' h rfl
    injection hback with ha hback
    injection hback with hb
    exact ⟨hfront, ha, hb⟩
  · rintro ⟨rfl, rfl, rfl⟩
    rfl

/-- One diagram alone is not two operands and an operator. -/
theorem singleton_ne_append_pair {d a b : Diagram} : [d] ≠ ds ++ [a, b] := by
  intro h
  have hlength := congrArg List.length h
  simp at hlength

end Diagram

open Diagram (firstLabel initial leaf_append_inj append_pair_inj singleton_ne_append_pair)

/-! ## Trees from their diagrams

By induction along both trees. Trees of different forms have different diagrams by their labels, by
the number of their children or by what the first child is; for trees of the same form the statement
about each child is used. -/

/-- The label of a name is the name, behind a fixed text. -/
theorem Ident.diagram_eq_iff {x y : Ident} : x.diagram = y.diagram ↔ x.unplaced = y.unplaced := by
  have hlabel : x.diagram = y.diagram ↔ x.name = y.name := leaf_append_inj "Id "
  simp [hlabel, unplaced]

/-- The label of a number is its value in decimal, which determines it. -/
theorem Numeral.diagram_eq_iff {n m : Numeral} :
    n.diagram = m.diagram ↔ n.unplaced = m.unplaced := by
  have hlabel : n.diagram = m.diagram ↔ toString n.value = toString m.value :=
    leaf_append_inj "Num "
  simp [hlabel, unplaced, Int.repr_inj]

/-- A sign is found in its label, and so are the operators below. -/
theorem Sign.leaf_inj {s t : Sign} :
    leaf s!"UnaryOp {s.symbol}" = leaf s!"UnaryOp {t.symbol}" ↔ s = t :=
  (leaf_append_inj "UnaryOp ").trans symbol_inj

theorem AddOp.leaf_inj {op other : AddOp} :
    leaf s!"BinaryOp {op.symbol}" = leaf s!"BinaryOp {other.symbol}" ↔ op = other :=
  (leaf_append_inj "BinaryOp ").trans symbol_inj

theorem MulOp.leaf_inj {op other : MulOp} :
    leaf s!"BinaryOp {op.symbol}" = leaf s!"BinaryOp {other.symbol}" ↔ op = other :=
  (leaf_append_inj "BinaryOp ").trans symbol_inj

theorem Relation.leaf_inj {r other : Relation} :
    leaf s!"CondOp {r.symbol}" = leaf s!"CondOp {other.symbol}" ↔ r = other :=
  (leaf_append_inj "CondOp ").trans symbol_inj

/-- The three kinds of factors have labels below them that begin differently. -/
@[simp]
theorem Ident.initial_diagram (x : Ident) : x.diagram.initial = some 'I' := by
  show ("Id " ++ x.name).toList.head? = some 'I'
  simp

@[simp]
theorem Numeral.initial_diagram (n : Numeral) : n.diagram.initial = some 'N' := by
  show ("Num " ++ toString n.value).toList.head? = some 'N'
  simp

@[simp]
theorem Expr.initial_diagram (e : Expr) : e.diagram.initial = some 'E' := by
  obtain ⟨sign, ts⟩ := e
  cases sign with
  | none => rfl
  | some s => rfl

/-- A sum begins with a term. -/
theorem Terms.firstLabel_diagrams (ts : Terms) : firstLabel ts.diagrams = some "Term" := by
  cases ts with
  | single t => rfl
  | join l op r => exact Diagram.firstLabel_append l.firstLabel_diagrams

/-- A sign is no term. -/
theorem Terms.diagrams_ne_signed (ts : Terms) (s : Sign) (ds : List Diagram) :
    ts.diagrams ≠ leaf s!"UnaryOp {s.symbol}" :: ds := by
  intro h
  have hfirst : some s!"UnaryOp {s.symbol}" = some "Term" := by
    rw [← ts.firstLabel_diagrams, h]
    rfl
  cases s <;> exact absurd hfirst (by decide)

mutual

/-- **Diagrams determine expressions** up to indices. A sign is the first child or there is none. -/
theorem Expr.diagram_eq_iff {e e' : Expr} : e.diagram = e'.diagram ↔ e.unplaced = e'.unplaced := by
  cases e with
  | mk sign ts =>
    cases e' with
    | mk sign' ts' =>
      have ih : ts.diagrams = ts'.diagrams ↔ ts.unplaced = ts'.unplaced := Terms.diagrams_eq_iff
      -- If one expression only is signed, its first child is a leaf and that of the other a term.
      cases sign with
      | none =>
        cases sign' with
        | none => simp [Expr.diagram, Expr.unplaced, ih]
        | some s => simp [Expr.diagram, Expr.unplaced, Terms.diagrams_ne_signed]
      | some s =>
        cases sign' with
        | none =>
          have hne := (ts'.diagrams_ne_signed s ts.diagrams).symm
          simp [Expr.diagram, Expr.unplaced, hne]
        | some s' => simp [Expr.diagram, Expr.unplaced, ih, Sign.leaf_inj]
termination_by structural e

/-- Sums are told apart from the right: the last operand, the operator in front of it, and what is
    in front of both. -/
theorem Terms.diagrams_eq_iff {ts ts' : Terms} :
    ts.diagrams = ts'.diagrams ↔ ts.unplaced = ts'.unplaced := by
  cases ts with
  | single t =>
    cases ts' with
    | single t' =>
      have ih : t.diagrams = t'.diagrams ↔ t.unplaced = t'.unplaced := Term.diagrams_eq_iff
      simp [Terms.diagrams, Terms.unplaced, ih]
    | join l' op' r' => simp [Terms.diagrams, Terms.unplaced, singleton_ne_append_pair]
  | join l op r =>
    cases ts' with
    | single t' => simp [Terms.diagrams, Terms.unplaced, singleton_ne_append_pair.symm]
    | join l' op' r' =>
      have ihl : l.diagrams = l'.diagrams ↔ l.unplaced = l'.unplaced := Terms.diagrams_eq_iff
      have ihr : r.diagrams = r'.diagrams ↔ r.unplaced = r'.unplaced := Term.diagrams_eq_iff
      simp [Terms.diagrams, Terms.unplaced, append_pair_inj, AddOp.leaf_inj, ihl, ihr]
termination_by structural ts

/-- So are products. -/
theorem Term.diagrams_eq_iff {t t' : Term} :
    t.diagrams = t'.diagrams ↔ t.unplaced = t'.unplaced := by
  cases t with
  | single f =>
    cases t' with
    | single f' =>
      have ih : f.diagram = f'.diagram ↔ f.unplaced = f'.unplaced := Factor.diagram_eq_iff
      simp [Term.diagrams, Term.unplaced, ih]
    | join l' op' r' => simp [Term.diagrams, Term.unplaced, singleton_ne_append_pair]
  | join l op r =>
    cases t' with
    | single f' => simp [Term.diagrams, Term.unplaced, singleton_ne_append_pair.symm]
    | join l' op' r' =>
      have ihl : l.diagrams = l'.diagrams ↔ l.unplaced = l'.unplaced := Term.diagrams_eq_iff
      have ihr : r.diagram = r'.diagram ↔ r.unplaced = r'.unplaced := Factor.diagram_eq_iff
      simp [Term.diagrams, Term.unplaced, append_pair_inj, MulOp.leaf_inj, ihl, ihr]
termination_by structural t

/-- The label below a factor tells what kind of factor it is. -/
theorem Factor.diagram_eq_iff {f f' : Factor} :
    f.diagram = f'.diagram ↔ f.unplaced = f'.unplaced := by
  have hinitial {d d' : Diagram} (h : d.initial ≠ d'.initial) : d ≠ d' := mt (congrArg initial) h
  cases f with
  | ident x =>
    cases f' with
    | ident y => simp [Factor.diagram, Factor.unplaced, Ident.diagram_eq_iff]
    | number n =>
      have hne : x.diagram ≠ n.diagram := hinitial (by simp)
      simp [Factor.diagram, Factor.unplaced, hne]
    | group e =>
      have hne : x.diagram ≠ e.diagram := hinitial (by simp)
      simp [Factor.diagram, Factor.unplaced, hne]
  | number n =>
    cases f' with
    | ident y =>
      have hne : n.diagram ≠ y.diagram := hinitial (by simp)
      simp [Factor.diagram, Factor.unplaced, hne]
    | number m => simp [Factor.diagram, Factor.unplaced, Numeral.diagram_eq_iff]
    | group e =>
      have hne : n.diagram ≠ e.diagram := hinitial (by simp)
      simp [Factor.diagram, Factor.unplaced, hne]
  | group e =>
    cases f' with
    | ident y =>
      have hne : e.diagram ≠ y.diagram := hinitial (by simp)
      simp [Factor.diagram, Factor.unplaced, hne]
    | number m =>
      have hne : e.diagram ≠ m.diagram := hinitial (by simp)
      simp [Factor.diagram, Factor.unplaced, hne]
    | group e' =>
      have ih : e.diagram = e'.diagram ↔ e.unplaced = e'.unplaced := Expr.diagram_eq_iff
      simp [Factor.diagram, Factor.unplaced, ih]
termination_by structural f

end

/-- The conditions with `odd` have two children, the others three. -/
theorem Condition.diagram_eq_iff {c c' : Condition} :
    c.diagram = c'.diagram ↔ c.unplaced = c'.unplaced := by
  cases c with
  | odd e =>
    cases c' with
    | odd e' => simp [diagram, unplaced, Expr.diagram_eq_iff]
    | compare l' r' e' => simp [diagram, unplaced]
  | compare l r e =>
    cases c' with
    | odd e' => simp [diagram, unplaced]
    | compare l' r' e' =>
      simp [diagram, unplaced, Expr.diagram_eq_iff, Relation.leaf_inj, and_left_comm]

/-! ## Statements

A statement is drawn as one diagram or, if it is empty, as none. Within a list the empty ones
disappear, which is what `compactAll` says; so two lists are compared after both have been
compacted. -/

namespace Statement

variable {s : Statement} {ss : List Statement}

theorem diagrams_of_isEmpty (h : s.isEmpty) : s.diagrams = [] := by
  cases s with
  | empty => rfl
  | _ => cases h

/-- A statement that is not empty is one diagram. -/
theorem diagrams_of_not_isEmpty (h : ¬ s.isEmpty) : ∃ d, s.diagrams = [d] := by
  cases s with
  | empty => exact absurd rfl h
  | _ => exact ⟨_, rfl⟩

theorem compactAll_of_isEmpty (h : s.isEmpty) : compactAll (s :: ss) = compactAll ss :=
  if_pos h

theorem compactAll_of_not_isEmpty (h : ¬ s.isEmpty) :
    compactAll (s :: ss) = s.compact :: compactAll ss :=
  if_neg h

/-- An empty statement in front is neither drawn nor kept. -/
theorem diagramsOf_of_isEmpty (h : s.isEmpty) : diagramsOf (s :: ss) = diagramsOf ss := by
  rw [diagramsOf, diagrams_of_isEmpty h, List.nil_append]

/-- Nothing is drawn where nothing is left. -/
theorem diagramsOf_eq_nil_iff : diagramsOf ss = [] ↔ compactAll ss = [] := by
  induction ss with
  | nil => simp [diagramsOf, compactAll]
  | cons s ss ih =>
    by_cases h : s.isEmpty
    · rw [diagramsOf_of_isEmpty h, compactAll_of_isEmpty h, ih]
    · obtain ⟨d, hd⟩ := diagrams_of_not_isEmpty h
      rw [diagramsOf, hd, compactAll_of_not_isEmpty h]
      simp

theorem unplacedAll_eq_nil_iff : unplacedAll ss = [] ↔ ss = [] := by
  cases ss <;> simp [unplacedAll]

end Statement

mutual

/-- **Diagrams determine statements** up to indices and empty statements. Statements of different
    kinds have different labels. -/
theorem Statement.diagrams_eq_iff {s t : Statement} :
    s.diagrams = t.diagrams ↔ s.compact.unplaced = t.compact.unplaced := by
  cases s with
  | empty =>
    cases t <;> simp [Statement.diagrams, Statement.compact, Statement.unplaced]
  | block body =>
    cases t with
    | block body' =>
      have ih : Statement.diagramsOf body = Statement.diagramsOf body' ↔
          Statement.unplacedAll (Statement.compactAll body) =
            Statement.unplacedAll (Statement.compactAll body') := Statement.diagramsOf_eq_iff
      simp [Statement.diagrams, Statement.compact, Statement.unplaced, ih]
    | _ => simp [Statement.diagrams, Statement.compact, Statement.unplaced]
  | read targets =>
    cases t with
    | read targets' =>
      have htargets : targets.map Ident.diagram = targets'.map Ident.diagram ↔
          targets.map Ident.unplaced = targets'.map Ident.unplaced :=
        map_eq_map_iff_of_forall fun _ _ _ _ => Ident.diagram_eq_iff
      simp [Statement.diagrams, Statement.compact, Statement.unplaced, htargets]
    | _ => simp [Statement.diagrams, Statement.compact, Statement.unplaced]
  | write values =>
    cases t with
    | write values' =>
      have hvalues : values.map Expr.diagram = values'.map Expr.diagram ↔
          values.map Expr.unplaced = values'.map Expr.unplaced :=
        map_eq_map_iff_of_forall fun _ _ _ _ => Expr.diagram_eq_iff
      simp [Statement.diagrams, Statement.compact, Statement.unplaced, hvalues]
    | _ => simp [Statement.diagrams, Statement.compact, Statement.unplaced]
  | call x =>
    cases t with
    | call y =>
      simp [Statement.diagrams, Statement.compact, Statement.unplaced, Ident.diagram_eq_iff]
    | _ => simp [Statement.diagrams, Statement.compact, Statement.unplaced]
  | whileDo c body =>
    cases t with
    | whileDo c' body' =>
      have ih : body.diagrams = body'.diagrams ↔
          body.compact.unplaced = body'.compact.unplaced := Statement.diagrams_eq_iff
      simp [Statement.diagrams, Statement.compact, Statement.unplaced, Condition.diagram_eq_iff, ih]
    | _ => simp [Statement.diagrams, Statement.compact, Statement.unplaced]
  | assign x e =>
    cases t with
    | assign y e' =>
      simp [Statement.diagrams, Statement.compact, Statement.unplaced, Ident.diagram_eq_iff,
        Expr.diagram_eq_iff]
    | _ => simp [Statement.diagrams, Statement.compact, Statement.unplaced]
  | ifThen c body =>
    cases t with
    | ifThen c' body' =>
      have ih : body.diagrams = body'.diagrams ↔
          body.compact.unplaced = body'.compact.unplaced := Statement.diagrams_eq_iff
      simp [Statement.diagrams, Statement.compact, Statement.unplaced, Condition.diagram_eq_iff, ih]
    | _ => simp [Statement.diagrams, Statement.compact, Statement.unplaced]
termination_by structural s

/-- Lists of statements, whose empty statements may stand at different places. -/
theorem Statement.diagramsOf_eq_iff {ss us : List Statement} :
    Statement.diagramsOf ss = Statement.diagramsOf us ↔
      Statement.unplacedAll (Statement.compactAll ss) =
        Statement.unplacedAll (Statement.compactAll us) := by
  cases ss with
  | nil =>
    rw [Statement.diagramsOf, Statement.compactAll, Statement.unplacedAll, eq_comm,
      Statement.diagramsOf_eq_nil_iff, ← Statement.unplacedAll_eq_nil_iff, eq_comm]
  | cons s ss =>
    have ihs (t : Statement) :
        s.diagrams = t.diagrams ↔ s.compact.unplaced = t.compact.unplaced :=
      Statement.diagrams_eq_iff
    have ihss (us : List Statement) : Statement.diagramsOf ss = Statement.diagramsOf us ↔
        Statement.unplacedAll (Statement.compactAll ss) =
          Statement.unplacedAll (Statement.compactAll us) :=
      Statement.diagramsOf_eq_iff
    -- An empty statement in front of the first list is passed over, by induction on it. If there is
    -- none, its first diagram is one, and the first of the other list has to be found.
    by_cases hs : s.isEmpty
    · rw [Statement.diagramsOf_of_isEmpty hs, Statement.compactAll_of_isEmpty hs, ihss]
    · obtain ⟨d, hd⟩ := Statement.diagrams_of_not_isEmpty hs
      -- The empty statements in front of the other list are passed over.
      induction us with
      | nil =>
        rw [Statement.compactAll_of_not_isEmpty hs]
        simp [Statement.diagramsOf, hd, Statement.compactAll, Statement.unplacedAll]
      | cons t us ih =>
        by_cases ht : t.isEmpty
        · rw [Statement.diagramsOf_of_isEmpty ht, Statement.compactAll_of_isEmpty ht]
          exact ih
        · obtain ⟨d', hd'⟩ := Statement.diagrams_of_not_isEmpty ht
          have hhead : d = d' ↔ s.compact.unplaced = t.compact.unplaced := by
            rw [← ihs, hd, hd', List.singleton_inj]
          rw [Statement.diagramsOf, Statement.diagramsOf, hd, hd',
            Statement.compactAll_of_not_isEmpty hs, Statement.compactAll_of_not_isEmpty ht]
          simp [Statement.unplacedAll, hhead, ihss]
termination_by structural ss

end

/-- A statement is no group of declarations. -/
theorem Statement.firstLabel_diagrams (s : Statement) {label : String}
    (h : label ∈ ["ConstDecls", "VarDecls", "ProcedureDecls"]) :
    firstLabel s.diagrams ≠ some label := by
  have hall : ∀ label ∈ ["ConstDecls", "VarDecls", "ProcedureDecls"],
      firstLabel s.diagrams ≠ some label := by
    cases s <;> simp [Statement.diagrams, firstLabel]
  exact hall label h

/-! ## Blocks and programs

The four parts of a block go below one node. Each of the first three is a group or missing, and no
part behind it begins with its label. -/

/-- A declaration of a constant has the name and the number below it. -/
theorem ConstDecl.diagram_eq_iff {d d' : ConstDecl} :
    d.diagram = d'.diagram ↔ d.unplaced = d'.unplaced := by
  simp [diagram, unplaced, Ident.diagram_eq_iff, Numeral.diagram_eq_iff]

mutual

/-- The groups of a block are taken off one after the other, from the left. -/
theorem Block.diagram_eq_iff {b b' : Block} :
    b.diagram = b'.diagram ↔ b.compact.unplaced = b'.compact.unplaced := by
  cases b with
  | mk consts vars ps body =>
    cases b' with
    | mk consts' vars' ps' body' =>
      have hconsts : consts.map ConstDecl.diagram = consts'.map ConstDecl.diagram ↔
          consts.map ConstDecl.unplaced = consts'.map ConstDecl.unplaced :=
        map_eq_map_iff_of_forall fun _ _ _ _ => ConstDecl.diagram_eq_iff
      have hvars : vars.map Ident.diagram = vars'.map Ident.diagram ↔
          vars.map Ident.unplaced = vars'.map Ident.unplaced :=
        map_eq_map_iff_of_forall fun _ _ _ _ => Ident.diagram_eq_iff
      have hps : Procedure.diagrams ps = Procedure.diagrams ps' ↔
          Procedure.unplacedAll (Procedure.compactAll ps) =
            Procedure.unplacedAll (Procedure.compactAll ps') := Procedure.diagrams_eq_iff
      have hfirst (s : Statement) : firstLabel s.diagrams ≠ some "ProcedureDecls" :=
        s.firstLabel_diagrams (by decide)
      have hfirst' (ps : List Procedure) (s : Statement) :
          firstLabel (Diagram.group "ProcedureDecls" (Procedure.diagrams ps) ++ s.diagrams) ≠
            some "VarDecls" :=
        Diagram.firstLabel_group_append (by decide) (s.firstLabel_diagrams (by decide))
      have hfirst'' (vars : List Ident) (ps : List Procedure) (s : Statement) :
          firstLabel (Diagram.group "VarDecls" (vars.map Ident.diagram) ++
              (Diagram.group "ProcedureDecls" (Procedure.diagrams ps) ++ s.diagrams)) ≠
            some "ConstDecls" :=
        Diagram.firstLabel_group_append (by decide)
          (Diagram.firstLabel_group_append (by decide) (s.firstLabel_diagrams (by decide)))
      simp only [Block.diagram, Block.compact, Block.unplaced, List.append_assoc,
        Diagram.node.injEq, true_and, Block.mk.injEq]
      -- Constants, variables, procedures; what is left is the statement.
      rw [Diagram.group_append_inj (hfirst'' _ _ _) (hfirst'' _ _ _),
        Diagram.group_append_inj (hfirst' _ _) (hfirst' _ _),
        Diagram.group_append_inj (hfirst _) (hfirst _), hconsts, hvars, hps,
        Statement.diagrams_eq_iff]
termination_by structural b

/-- A procedure shows its name in the header and its block beside it. -/
theorem Procedure.diagram_eq_iff {p q : Procedure} :
    p.diagram = q.diagram ↔ p.compact.unplaced = q.compact.unplaced := by
  cases p with
  | mk x b =>
    cases q with
    | mk y c =>
      have ih : b.diagram = c.diagram ↔ b.compact.unplaced = c.compact.unplaced :=
        Block.diagram_eq_iff
      simp [Procedure.diagram, Procedure.compact, Procedure.unplaced, Ident.diagram_eq_iff, ih]
termination_by structural p

/-- Procedures in turn; none of them is ever left out. -/
theorem Procedure.diagrams_eq_iff {ps qs : List Procedure} :
    Procedure.diagrams ps = Procedure.diagrams qs ↔
      Procedure.unplacedAll (Procedure.compactAll ps) =
        Procedure.unplacedAll (Procedure.compactAll qs) := by
  cases ps with
  | nil =>
    cases qs <;> simp [Procedure.diagrams, Procedure.compactAll, Procedure.unplacedAll]
  | cons p ps =>
    cases qs with
    | nil => simp [Procedure.diagrams, Procedure.compactAll, Procedure.unplacedAll]
    | cons q qs =>
      have ihp : p.diagram = q.diagram ↔ p.compact.unplaced = q.compact.unplaced :=
        Procedure.diagram_eq_iff
      have ihps : Procedure.diagrams ps = Procedure.diagrams qs ↔
          Procedure.unplacedAll (Procedure.compactAll ps) =
            Procedure.unplacedAll (Procedure.compactAll qs) := Procedure.diagrams_eq_iff
      simp [Procedure.diagrams, Procedure.compactAll, Procedure.unplacedAll, ihp, ihps]
termination_by structural ps

end

/-- **The diagram shows the whole tree** but for the indices and for the empty statements between
    `begin` and `end`. -/
theorem Program.diagram_eq_iff {p q : Program} :
    p.diagram = q.diagram ↔ p.compact.unplaced = q.compact.unplaced := by
  simp [diagram, compact, unplaced, Block.diagram_eq_iff]

end PL0
