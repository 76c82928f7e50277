import PL0.Proofs.Grammar.Identifiers

/-!
# `Tree.Fragments` — the statements, conditions and expressions of a program

`Program.fragments` lists the fragments of a program: each statement, each condition and each
expression in it, at any depth. A fragment of a program that is read from a text is written with
words of letters for names, and what the grammar repeats is there at least once
(`Program.legible_of_scan`); a tree built in another way need not be so.

`Statement.unplaced`, `Condition.unplaced` and `Expr.unplaced` forget where a fragment stands in the
source: all indices become zero, and the rest stays.
-/

namespace PL0

/-! ## Trees without their places

Parts of different programs, or of one program, are compared apart from where they stand.
Identifiers and numbers are all that has a place. -/

/-- The identifier with index zero. -/
def Ident.unplaced (x : Ident) : Ident := { x with index := 0 }

/-- The numeral with index zero. -/
def Numeral.unplaced (n : Numeral) : Numeral := { n with index := 0 }

mutual

/-- The expression with every index zero. -/
def Expr.unplaced : Expr → Expr
  | .mk sign ts => .mk sign ts.unplaced

def Terms.unplaced : Terms → Terms
  | .single t => .single t.unplaced
  | .join left op right => .join left.unplaced op right.unplaced

def Term.unplaced : Term → Term
  | .single f => .single f.unplaced
  | .join left op right => .join left.unplaced op right.unplaced

def Factor.unplaced : Factor → Factor
  | .ident x => .ident x.unplaced
  | .number n => .number n.unplaced
  | .group e => .group e.unplaced

end

/-- The condition with every index zero. -/
def Condition.unplaced : Condition → Condition
  | .odd e => .odd e.unplaced
  | .compare left r right => .compare left.unplaced r right.unplaced

mutual

/-- The statement with every index zero. -/
def Statement.unplaced : Statement → Statement
  | .empty => .empty
  | .block body => .block (Statement.unplacedAll body)
  | .read targets => .read (targets.map Ident.unplaced)
  | .write values => .write (values.map Expr.unplaced)
  | .call x => .call x.unplaced
  | .whileDo c body => .whileDo c.unplaced body.unplaced
  | .assign x e => .assign x.unplaced e.unplaced
  | .ifThen c body => .ifThen c.unplaced body.unplaced

/-- The statements with every index zero; none is left out. -/
def Statement.unplacedAll : List Statement → List Statement
  | [] => []
  | s :: ss => s.unplaced :: Statement.unplacedAll ss

end

/-! ## Fragments

The three categories that have a prefix form. Sums, products and factors are parts of an expression
and no fragments of their own; a declaration has none at all. -/

/-- A statement, a condition or an expression. -/
inductive Fragment where
  | statement (s : Statement)
  | condition (c : Condition)
  | expr (e : Expr)

mutual

/-- The expression and the expressions in it. -/
def Expr.fragments : Expr → List Fragment
  | .mk sign ts => .expr (.mk sign ts) :: ts.fragments

/-- Parentheses are where an expression contains others. -/
def Terms.fragments : Terms → List Fragment
  | .single t => t.fragments
  | .join left _ right => left.fragments ++ right.fragments

def Term.fragments : Term → List Fragment
  | .single f => f.fragments
  | .join left _ right => left.fragments ++ right.fragments

def Factor.fragments : Factor → List Fragment
  | .ident _ => []
  | .number _ => []
  | .group e => e.fragments

end

/-- What a condition compares. -/
def Condition.operands : Condition → List Expr
  | .odd e => [e]
  | .compare left _ right => [left, right]

/-- The condition and the expressions in it. -/
def Condition.fragments (c : Condition) : List Fragment :=
  .condition c :: c.operands.flatMap Expr.fragments

mutual

/-- The statement and what is in it. -/
def Statement.fragments : Statement → List Fragment
  | .empty => [.statement .empty]
  | .block body => .statement (.block body) :: Statement.fragmentsOf body
  | .read targets => [.statement (.read targets)]
  | .write values => .statement (.write values) :: values.flatMap Expr.fragments
  | .call x => [.statement (.call x)]
  | .whileDo c body => .statement (.whileDo c body) :: (c.fragments ++ body.fragments)
  | .assign x e => .statement (.assign x e) :: e.fragments
  | .ifThen c body => .statement (.ifThen c body) :: (c.fragments ++ body.fragments)

/-- The fragments of the statements of a list, one after the other. -/
def Statement.fragmentsOf : List Statement → List Fragment
  | [] => []
  | s :: ss => s.fragments ++ Statement.fragmentsOf ss

end

mutual

/-- What is in the statement of the block and in those of its procedures. -/
def Block.fragments : Block → List Fragment
  | .mk _ _ ps body => Procedure.fragmentsOf ps ++ body.fragments

def Procedure.fragments : Procedure → List Fragment
  | .mk _ b => b.fragments

/-- Likewise those of procedures. -/
def Procedure.fragmentsOf : List Procedure → List Fragment
  | [] => []
  | p :: ps => p.fragments ++ Procedure.fragmentsOf ps

end

/-- **The statements, conditions and expressions of a program**, at any depth. -/
def Program.fragments (p : Program) : List Fragment := p.block.fragments

/-! ## Fragments of programs that are read

A fragment of a legible tree is legible, by induction along the tree. For the whole tree of a
program that has been read, the names are words because the lexer admits no others, and the lists
are filled because the grammar asks for it. -/

/-- The name is a word of letters. -/
def Ident.IsWord (x : Ident) : Prop := IsRun Char.isAlpha x.name

namespace Fragment

/-- The names of the fragment are words, and what the grammar repeats is there at least once. -/
def Legible : Fragment → Prop
  | statement s => s.Filled ∧ ∀ x ∈ s.idents, x.IsWord
  | condition c => ∀ x ∈ c.idents, x.IsWord
  | expr e => ∀ x ∈ e.idents, x.IsWord

end Fragment

variable {f : Fragment}

mutual

/-- What is in an expression has its names from there. -/
theorem Expr.legible {e : Expr} (hx : ∀ x ∈ e.idents, x.IsWord) (hf : f ∈ e.fragments) :
    f.Legible := by
  cases e with
  | mk sign ts =>
    rcases List.mem_cons.1 hf with rfl | hf
    · exact hx
    · exact Terms.legible (hx : ∀ x ∈ ts.idents, x.IsWord) hf

theorem Terms.legible {ts : Terms} (hx : ∀ x ∈ ts.idents, x.IsWord) (hf : f ∈ ts.fragments) :
    f.Legible := by
  cases ts with
  | single t => exact Term.legible (t := t) hx hf
  | join left op right =>
    obtain ⟨hl, hr⟩ := List.forall_mem_append.1 hx
    rcases List.mem_append.1 hf with hf | hf
    · exact Terms.legible hl hf
    · exact Term.legible hr hf

theorem Term.legible {t : Term} (hx : ∀ x ∈ t.idents, x.IsWord) (hf : f ∈ t.fragments) :
    f.Legible := by
  cases t with
  | single f' => exact Factor.legible (hx : ∀ x ∈ f'.idents, x.IsWord) hf
  | join left op right =>
    obtain ⟨hl, hr⟩ := List.forall_mem_append.1 hx
    rcases List.mem_append.1 hf with hf | hf
    · exact Term.legible hl hf
    · exact Factor.legible hr hf

theorem Factor.legible {f' : Factor} (hx : ∀ x ∈ f'.idents, x.IsWord) (hf : f ∈ f'.fragments) :
    f.Legible := by
  cases f' with
  | ident x => cases hf
  | number n => cases hf
  | group e => exact Expr.legible (e := e) hx hf

end

/-- The names of a condition are those of its operands. -/
theorem Condition.idents_eq (c : Condition) : c.idents = c.operands.flatMap Expr.idents := by
  cases c <;> simp [idents, operands]

/-- The expressions of a list are legible if the names in it are. -/
theorem Expr.legible_flatMap {es : List Expr} (hx : ∀ x ∈ es.flatMap idents, x.IsWord)
    (hf : f ∈ es.flatMap fragments) : f.Legible := by
  obtain ⟨e, he, hf⟩ := List.mem_flatMap.1 hf
  exact legible (fun x hxe => hx x (List.mem_flatMap.2 ⟨e, he, hxe⟩)) hf

/-- What is in a condition has its names from there. -/
theorem Condition.legible {c : Condition} (hx : ∀ x ∈ c.idents, x.IsWord)
    (hf : f ∈ c.fragments) : f.Legible := by
  rcases List.mem_cons.1 hf with rfl | hf
  · exact hx
  · exact Expr.legible_flatMap (c.idents_eq ▸ hx) hf

mutual

/-- What is in a filled statement is filled, and has its names from there. -/
theorem Statement.legible {s : Statement} (hs : s.Filled) (hx : ∀ x ∈ s.idents, x.IsWord)
    (hf : f ∈ s.fragments) : f.Legible := by
  -- The statement is the first of its own fragments.
  have hself : (Fragment.statement s).Legible := ⟨hs, hx⟩
  cases s with
  | empty | read _ | call _ => exact List.mem_singleton.1 hf ▸ hself
  | block body =>
    rcases List.mem_cons.1 hf with rfl | hf
    · exact hself
    · exact Statement.legibleAll (hs.2 : Statement.FilledAll body) hx hf
  | write values =>
    rcases List.mem_cons.1 hf with rfl | hf
    · exact hself
    · exact Expr.legible_flatMap hx hf
  | assign x e =>
    rcases List.mem_cons.1 hf with rfl | hf
    · exact hself
    · exact Expr.legible (List.forall_mem_append.1 hx).1 hf
  | whileDo c body | ifThen c body =>
    obtain ⟨hc, hbody⟩ := List.forall_mem_append.1 hx
    rcases List.mem_cons.1 hf with rfl | hf
    · exact hself
    · rcases List.mem_append.1 hf with hf | hf
      · exact Condition.legible hc hf
      · exact Statement.legible (s := body) hs hbody hf

/-- The same for the statements of a list. -/
theorem Statement.legibleAll {ss : List Statement} (hs : Statement.FilledAll ss)
    (hx : ∀ x ∈ Statement.identsOf ss, x.IsWord) (hf : f ∈ Statement.fragmentsOf ss) :
    f.Legible := by
  cases ss with
  | nil => cases hf
  | cons s ss =>
    obtain ⟨hone, hmore⟩ := List.forall_mem_append.1 hx
    rcases List.mem_append.1 hf with hf | hf
    · exact Statement.legible hs.1 hone hf
    · exact Statement.legibleAll hs.2 hmore hf

end

mutual

/-- The fragments of a block are in its procedures or in its statement. -/
theorem Block.legible {b : Block} (hb : b.Filled) (hx : ∀ x ∈ b.idents, x.IsWord)
    (hf : f ∈ b.fragments) : f.Legible := by
  cases b with
  | mk consts vars ps body =>
    obtain ⟨hdeclared, hbody⟩ := List.forall_mem_append.1 hx
    rcases List.mem_append.1 hf with hf | hf
    · exact Procedure.legibleAll hb.1 (List.forall_mem_append.1 hdeclared).2 hf
    · exact Statement.legible hb.2 hbody hf

theorem Procedure.legible {p : Procedure} (hp : p.Filled) (hx : ∀ x ∈ p.idents, x.IsWord)
    (hf : f ∈ p.fragments) : f.Legible := by
  cases p with
  | mk x b => exact Block.legible (b := b) hp (List.forall_mem_cons.1 hx).2 hf

/-- The same for procedures; their own names are no fragments. -/
theorem Procedure.legibleAll {ps : List Procedure} (hp : Procedure.FilledAll ps)
    (hx : ∀ x ∈ Procedure.identsOf ps, x.IsWord) (hf : f ∈ Procedure.fragmentsOf ps) :
    f.Legible := by
  cases ps with
  | nil => cases hf
  | cons p ps =>
    obtain ⟨hone, hmore⟩ := List.forall_mem_append.1 hx
    rcases List.mem_append.1 hf with hf | hf
    · exact Procedure.legible hp.1 hone hf
    · exact Procedure.legibleAll hp.2 hmore hf

end

/-- **The fragments of a program read from a text are legible.** -/
theorem Program.legible_of_scan {p : Program} {ts : List Token} {text : String}
    (hscan : Lexer.scan text = .ok ts) (hread : ofTokens ts = .ok p) (hf : f ∈ p.fragments) :
    f.Legible := by
  obtain ⟨⟨hfilled, -⟩, -⟩ := ofTokens_eq_ok_iff.1 hread
  -- All identifiers of the program, declared or used, are texts that the lexer admits.
  refine Block.legible hfilled ?_ hf
  intro x hx
  obtain ⟨⟨hword, -⟩, -⟩ := admits_of_scan hscan hread hx
  exact hword

end PL0
