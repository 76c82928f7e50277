import PL0.Proofs.Codegen.Scope

/-!
# `Codegen.Size` — the length of the code of a tree

How many instructions a tree has depends on the tree alone, not on the names in scope nor on the
address (`codeSize`). The length lemmas say that the code of a tree, where it has one, is that long.
-/

namespace PL0

/-! ## Sizes

The sizes follow the code generator branch by branch. An operand is one instruction and an operator
another one; a statement adds the stores and jumps that go with it. -/

mutual

/-- The number of instructions of an expression. -/
def Expr.codeSize : Expr → Nat
  | .mk _ ts => ts.codeSize

/-- Both operands, and the operator behind them. -/
def Terms.codeSize : Terms → Nat
  | .single t => t.codeSize
  | .join left _ right => left.codeSize + right.codeSize + 1

def Term.codeSize : Term → Nat
  | .single f => f.codeSize
  | .join left _ right => left.codeSize + right.codeSize + 1

/-- A name or a number is one instruction. Parentheses leave no trace in the code. -/
def Factor.codeSize : Factor → Nat
  | .ident _ => 1
  | .number _ => 1
  | .group e => e.codeSize

end

/-- The instruction behind the operands leaves a truth value. -/
def Condition.codeSize : Condition → Nat
  | .odd e => e.codeSize + 1
  | .compare left _ right => left.codeSize + right.codeSize + 1

mutual

/-- The number of instructions of a statement. -/
def Statement.codeSize : Statement → Nat
  | .empty => 0
  | .block body => Statement.codeSizes body
  -- A load from the input channel and a store, for each target,
  | .read targets => (targets.map fun _ => 2).sum
  -- and a store to the output channel for each value.
  | .write values => (values.map fun e => e.codeSize + 1).sum
  | .call _ => 1
  -- The conditional jump stands behind the test, the jump back behind the body.
  | .whileDo c body => c.codeSize + 1 + body.codeSize + 1
  | .assign _ e => e.codeSize + 1
  | .ifThen c body => c.codeSize + 1 + body.codeSize

/-- Statements in a row have nothing between them. -/
def Statement.codeSizes : List Statement → Nat
  | [] => 0
  | s :: ss => s.codeSize + Statement.codeSizes ss

end

mutual

/-- The number of instructions of a block, its procedures included. -/
def Block.codeSize : Block → Nat
  | .mk consts _ ps body => 1 + 2 * consts.length + Procedure.codeSizes ps + body.codeSize + 1

/-- The number of instructions of a procedure: three, and its block. -/
def Procedure.codeSize : Procedure → Nat
  | .mk _ b => 3 + b.codeSize

/-- The size of the procedures of a block. -/
def Procedure.codeSizes : List Procedure → Nat
  | [] => 0
  | p :: ps => p.codeSize + Procedure.codeSizes ps

end

open Codegen

/-! ## Lengths

Each proof takes the code of a node apart by the lemma of `Codegen.Emission` on this node, and adds
up the lengths of the parts. -/

/-- Code collected along a list is as long as its parts together. -/
theorem collect_length {α : Type} {f : α → Except CodegenError (List Instruction)} {size : α → Nat}
    (hf : ∀ x is, f x = .ok is → is.length = size x) :
    ∀ {xs : List α} {is : List Instruction}, collect f xs = .ok is →
      is.length = (xs.map size).sum := by
  intro xs
  induction xs with
  | nil =>
    intro is h
    cases pure_eq_ok_iff.1 h
    rfl
  | cons x xs ih =>
    intro is h
    obtain ⟨is, his, js, hjs, rfl⟩ := collect_cons_eq_ok_iff.1 h
    rw [List.length_append, hf x is his, ih hjs, List.map_cons, List.sum_cons]

mutual

/-- **Expressions.** The length does not depend on where the names lead, so the environment may be
    any in which the code exists. -/
theorem Expr.length_code {e : Expr} {env : Environment} {is : List Instruction}
    (h : e.code env = .ok is) : is.length = e.codeSize := by
  cases e with
  | mk sign ts =>
    have hts : ts.code env = .ok is := h
    exact Terms.length_code hts

theorem Terms.length_code {ts : Terms} {env : Environment} {is : List Instruction}
    (h : ts.code env = .ok is) : is.length = ts.codeSize := by
  cases ts with
  | single t => exact Term.length_code (t := t) h
  | join left op right =>
    obtain ⟨ls, hl, rs, hr, rfl⟩ := Terms.code_join_eq_ok_iff.1 h
    simp [Terms.codeSize, Terms.length_code hl, Term.length_code hr, Nat.add_assoc]

theorem Term.length_code {t : Term} {env : Environment} {is : List Instruction}
    (h : t.code env = .ok is) : is.length = t.codeSize := by
  cases t with
  | single f => exact Factor.length_code (f := f) h
  | join left op right =>
    obtain ⟨ls, hl, rs, hr, rfl⟩ := Term.code_join_eq_ok_iff.1 h
    simp [Term.codeSize, Term.length_code hl, Factor.length_code hr, Nat.add_assoc]

theorem Factor.length_code {f : Factor} {env : Environment} {is : List Instruction}
    (h : f.code env = .ok is) : is.length = f.codeSize := by
  cases f with
  | ident x =>
    obtain ⟨a, -, rfl, -⟩ := Factor.code_ident_eq_ok_iff.1 h
    rfl
  | number n => cases pure_eq_ok_iff.1 h; rfl
  | group e => exact Expr.length_code (e := e) h

end

/-- Conditions, too, have one operator behind their operands. -/
theorem Condition.length_code {c : Condition} {env : Environment} {is : List Instruction}
    (h : c.code env = .ok is) : is.length = c.codeSize := by
  cases c with
  | odd e =>
    obtain ⟨ls, hl, rfl⟩ := Condition.code_odd_eq_ok_iff.1 h
    simp [Condition.codeSize, Expr.length_code hl]
  | compare left r right =>
    obtain ⟨ls, hl, rs, hr, rfl⟩ := Condition.code_compare_eq_ok_iff.1 h
    simp [Condition.codeSize, Expr.length_code hl, Expr.length_code hr, Nat.add_assoc]

/-- Every target takes a load and a store, whatever levels these have. -/
theorem length_readCode {env : Environment} {input : Address} {x : Ident}
    {is : List Instruction} (h : readCode env input x = .ok is) : is.length = 2 := by
  obtain ⟨a, -, -, -, rfl⟩ := readCode_eq_ok_iff.1 h
  rfl

/-- Every value takes its own code and a store. -/
theorem length_writeCode {env : Environment} {output : Address} {e : Expr}
    {is : List Instruction} (h : writeCode env output e = .ok is) :
    is.length = e.codeSize + 1 := by
  obtain ⟨es, he, -, rfl⟩ := writeCode_eq_ok_iff.1 h
  simp [Expr.length_code he]

mutual

/-- **Statements.** The address moves the targets of jumps and adds no instruction. -/
theorem Statement.length_code {s : Statement} {env : Environment} {a : Nat}
    {is : List Instruction} (h : s.code env a = .ok is) : is.length = s.codeSize := by
  cases s with
  | empty => cases pure_eq_ok_iff.1 h; rfl
  | block body =>
    have hbody : Statement.codes env a body = .ok is := h
    exact Statement.length_codes hbody
  | read targets =>
    obtain ⟨input, -, h⟩ := Statement.code_read_eq_ok_iff.1 h
    exact collect_length (fun _ _ => length_readCode) h
  | write values =>
    obtain ⟨output, -, h⟩ := Statement.code_write_eq_ok_iff.1 h
    exact collect_length (fun _ _ => length_writeCode) h
  | call x =>
    obtain ⟨a, -, rfl, -⟩ := Statement.code_call_eq_ok_iff.1 h
    rfl
  | whileDo c body =>
    obtain ⟨test, ht, bs, hb, -, -, rfl⟩ := Statement.code_whileDo_eq_ok_iff.1 h
    simp [Statement.codeSize, Condition.length_code ht, Statement.length_code hb]
    omega
  | assign x e =>
    obtain ⟨es, he, a, -, -, rfl⟩ := Statement.code_assign_eq_ok_iff.1 h
    simp [Statement.codeSize, Expr.length_code he]
  | ifThen c body =>
    obtain ⟨test, ht, bs, hb, -, rfl⟩ := Statement.code_ifThen_eq_ok_iff.1 h
    simp [Statement.codeSize, Condition.length_code ht, Statement.length_code hb]
    omega

theorem Statement.length_codes {ss : List Statement} {env : Environment} {a : Nat}
    {is : List Instruction} (h : Statement.codes env a ss = .ok is) :
    is.length = Statement.codeSizes ss := by
  cases ss with
  | nil => cases pure_eq_ok_iff.1 h; rfl
  | cons s ss =>
    obtain ⟨is, his, js, hjs, rfl⟩ := Statement.codes_cons_eq_ok_iff.1 h
    simp [Statement.codeSizes, Statement.length_code his, Statement.length_codes hjs]

end

/-- Each constant takes a literal and a store. This includes one that repeats a name. -/
theorem length_constsCode {ds : List ConstDecl} {s : Scope} {is : List Instruction}
    (h : constsCode s ds = .ok is) : is.length = 2 * ds.length := by
  induction ds generalizing s is with
  | nil => cases pure_eq_ok_iff.1 h; rfl
  | cons d ds ih =>
    obtain ⟨is, his, js, hjs, rfl⟩ := constsCode_cons_eq_ok_iff.1 h
    obtain ⟨-, rfl⟩ := constCode_eq_ok_iff.1 his
    simp [ih hjs]
    omega

mutual

/-- **Blocks.** Between `INT` and `OPR 0 0` there are the constants, the procedures and the
    statement part. Variables have no code. -/
theorem Block.length_code {b : Block} {env : Environment} {a : Nat} {is : List Instruction}
    (h : b.code env a = .ok is) : is.length = b.codeSize := by
  cases b with
  | mk consts vars procedures body =>
    obtain ⟨cs, hcs, ps, hps, bs, hbs, -, rfl⟩ := Block.code_eq_ok_iff.1 h
    have hp : ps.length = Procedure.codeSizes procedures := Procedure.length_codes hps
    have hb : bs.length = body.codeSize := Statement.length_code hbs
    have hc : cs.length = 2 * consts.length := length_constsCode hcs
    simp [Block.codeSize, hc, hp, hb]
    omega

/-- The three instructions in front of the block store its entry address and jump around it. -/
theorem Procedure.length_code {p : Procedure} {env : Environment} {s : Scope} {a : Nat}
    {is : List Instruction} (h : p.code env s a = .ok is) : is.length = p.codeSize := by
  cases p with
  | mk x b =>
    obtain ⟨-, -, bs, hbs, -, rfl⟩ := Procedure.code_eq_ok_iff.1 h
    have hb : bs.length = b.codeSize := Block.length_code hbs
    simp [Procedure.codeSize, hb]
    omega

theorem Procedure.length_codes {ps : List Procedure} {env : Environment} {s : Scope} {a : Nat}
    {is : List Instruction} (h : Procedure.codes env s a ps = .ok is) :
    is.length = Procedure.codeSizes ps := by
  cases ps with
  | nil => cases pure_eq_ok_iff.1 h; rfl
  | cons p ps =>
    obtain ⟨is, his, js, hjs, rfl⟩ := Procedure.codes_cons_eq_ok_iff.1 h
    simp [Procedure.codeSizes, Procedure.length_code his, Procedure.length_codes hjs]

end

end PL0
