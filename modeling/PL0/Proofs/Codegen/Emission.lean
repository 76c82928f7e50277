import Mathlib
import PL0.Codegen

/-!
# `Codegen.Emission` — the code of a tree, as a function

The walk of `PL0.Codegen` emits placeholders and patches them later. Here the code of every tree is
written down at once, with each address in its place: `Expr.code`, `Statement.code` and `Block.code`
answer the list of instructions, or the error that ends the walk. The code of an expression depends
on the scopes around it only; the code of a statement or of a block depends also on the address at
which it starts, through the targets of its jumps and the entry addresses of its procedures.

`Codegen.Walk` proves that the walk emits exactly these lists.
-/

namespace PL0

/-! ## Scopes of blocks -/

namespace Scope

/-- The scope with one constant more. -/
def declareConst (s : Scope) (d : ConstDecl) : Scope :=
  (s.declare d.name.name .const (some d.value.value)).2

/-- The scope with one variable more. -/
def declareVar (s : Scope) (x : Ident) : Scope := (s.declare x.name .var none).2

/-- The scope with one procedure more. -/
def declareProcedure (s : Scope) (p : Procedure) : Scope :=
  (s.declare p.name.name .procedure none).2

end Scope

namespace Block

/-- The scope of a block with its constants and variables declared, but no procedure. -/
def dataScope (b : Block) : Scope :=
  b.vars.foldl Scope.declareVar (b.consts.foldl Scope.declareConst Scope.empty)

/-- The scope of a block with all its names declared. -/
def scope (b : Block) : Scope := b.procedures.foldl Scope.declareProcedure b.dataScope

end Block

namespace Environment

/-- The environment with a further scope, innermost, that already holds names. -/
def nest (env : Environment) (s : Scope) : Environment := { env with scopes := s :: env.scopes }

theorem exit_nest (env : Environment) (s : Scope) : (env.nest s).exit = env := rfl

theorem current_nest (env : Environment) (s : Scope) : (env.nest s).current = s := rfl

/-- The environment with another innermost scope. -/
def withCurrent (env : Environment) (s : Scope) : Environment :=
  match env.scopes with
  | [] => { env with base := s }
  | _ :: scopes => { env with scopes := s :: scopes }

theorem withCurrent_current (env : Environment) : env.withCurrent env.current = env := by
  obtain ⟨scopes, base⟩ := env
  cases scopes <;> rfl

theorem define_eq (env : Environment) (name : String) (kind : SymbolKind) (value : Option Int) :
    env.define name kind value =
      ((env.current.declare name kind value).1,
        env.withCurrent (env.current.declare name kind value).2) := by
  obtain ⟨scopes, base⟩ := env
  cases scopes <;> rfl

/-- Where a name used in the program leads. -/
def locate (env : Environment) (x : Ident) : Except CodegenError Address :=
  match env.resolve x.name with
  | some a => .ok a
  | none => .error (.undeclared x)

/-- Where a channel is. -/
def channel (env : Environment) (name : String) : Except CodegenError Address :=
  match env.resolve name with
  | some a => .ok a
  | none => .error (.missingChannel name)

end Environment

/-! ## The code of every tree -/

namespace Codegen

/-- A slot, a size or an address as the offset of an instruction. -/
def offset (n : Nat) : Except CodegenError Int :=
  match Code.offset? n with
  | some v => .ok v
  | none => .error (.buffer .tooLarge)

/-- The codes of the elements of a list, one behind the other. -/
def collect {α : Type} (f : α → Except CodegenError (List Instruction)) :
    List α → Except CodegenError (List Instruction)
  | [] => return []
  | x :: xs => do
    let is ← f x
    let js ← collect f xs
    return is ++ js

/-- The access to the cell that an address denotes. -/
def accessCode (op : OpCode) (a : Address) : Except CodegenError (List Instruction) := do
  return [.make op a.level (← offset a.symbol.slot)]

end Codegen

open Codegen

mutual

/-- A sign has no code: the sum behind it is evaluated as it stands. -/
def Expr.code (env : Environment) : Expr → Except CodegenError (List Instruction)
  | .mk _ ts => ts.code env

/-- Left operand, right operand, operator. -/
def Terms.code (env : Environment) : Terms → Except CodegenError (List Instruction)
  | .single t => t.code env
  | .join left op right => do
    let ls ← left.code env
    let rs ← right.code env
    return ls ++ rs ++ [.apply (.arith op.arith)]

/-- Products are evaluated like sums. -/
def Term.code (env : Environment) : Term → Except CodegenError (List Instruction)
  | .single f => f.code env
  | .join left op right => do
    let ls ← left.code env
    let rs ← right.code env
    return ls ++ rs ++ [.apply (.arith op.arith)]

/-- The value of a name is loaded; a number is in the instruction itself. -/
def Factor.code (env : Environment) : Factor → Except CodegenError (List Instruction)
  | .ident x => do accessCode .lod (← env.locate x)
  | .number n => return [.make .lit 0 n.value]
  | .group e => e.code env

end

/-- The test leaves 1 or 0 for the jump behind it. -/
def Condition.code (env : Environment) : Condition → Except CodegenError (List Instruction)
  | .odd e => return (← e.code env) ++ [.apply .odd]
  | .compare left r right => do
    let ls ← left.code env
    let rs ← right.code env
    return ls ++ rs ++ [.apply (.relation r)]

namespace Codegen

/-- A value of the input channel, stored to `x`. -/
def readCode (env : Environment) (input : Address) (x : Ident) :
    Except CodegenError (List Instruction) := do
  let target ← env.locate x
  let ls ← accessCode .lod input
  let ss ← accessCode .sto target
  return ls ++ ss

/-- The value of an expression, stored to the output channel. -/
def writeCode (env : Environment) (output : Address) (e : Expr) :
    Except CodegenError (List Instruction) := do
  let is ← e.code env
  let ss ← accessCode .sto output
  return is ++ ss

end Codegen

mutual

/-- The code of a statement that starts at address `a`. -/
def Statement.code (env : Environment) (a : Nat) :
    Statement → Except CodegenError (List Instruction)
  | .empty => return []
  | .block body => Statement.codes env a body
  | .read targets => do
    let input ← env.channel readChannel
    collect (readCode env input) targets
  | .write values => do
    let output ← env.channel writeChannel
    collect (writeCode env output) values
  | .call x => do accessCode .cal (← env.locate x)
  | .whileDo c body => do
    let test ← c.code env
    let is ← body.code env (a + test.length + 1)
    let top ← offset a
    let exit ← offset (a + test.length + 1 + is.length + 1)
    return test ++ .make .jpc 0 exit :: (is ++ [.make .jmp 0 top])
  | .assign x e => do
    let is ← e.code env
    let target ← env.locate x
    let ss ← accessCode .sto target
    return is ++ ss
  | .ifThen c body => do
    let test ← c.code env
    let is ← body.code env (a + test.length + 1)
    let skip ← offset (a + test.length + 1 + is.length)
    return test ++ .make .jpc 0 skip :: is

/-- The code of statements that follow each other, from address `a` on. -/
def Statement.codes (env : Environment) (a : Nat) :
    List Statement → Except CodegenError (List Instruction)
  | [] => return []
  | s :: ss => do
    let is ← s.code env a
    let js ← Statement.codes env (a + is.length) ss
    return is ++ js

end

namespace Codegen

/-- A constant, stored to the slot that it gets in the scope `s`. -/
def constCode (s : Scope) (d : ConstDecl) : Except CodegenError (List Instruction) := do
  let slot ← offset (s.declare d.name.name .const (some d.value.value)).1.symbol.slot
  return [.make .lit 0 d.value.value, .make .sto 0 slot]

/-- The constants of a block, declared one after the other in the scope `s`. -/
def constsCode (s : Scope) : List ConstDecl → Except CodegenError (List Instruction)
  | [] => return []
  | d :: ds => do
    let is ← constCode s d
    let js ← constsCode (s.declareConst d) ds
    return is ++ js

end Codegen

mutual

/-- The code of a block that starts at address `a`, the scopes around it being `env`. -/
def Block.code (env : Environment) (a : Nat) : Block → Except CodegenError (List Instruction)
  | .mk consts vars ps body => do
    let cs ← constsCode Scope.empty consts
    let scope := (Block.mk consts vars ps body).dataScope
    let is ← Procedure.codes env scope (a + 1 + cs.length) ps
    let scope := (Block.mk consts vars ps body).scope
    let js ← body.code (env.nest scope) (a + 1 + cs.length + is.length)
    let slots ← offset scope.size
    return .make .int 0 slots :: (cs ++ is ++ js ++ [.leave])

/-- The code of a procedure declared in the scope `s`: its entry address is stored, then jumped
    over. -/
def Procedure.code (env : Environment) (s : Scope) (a : Nat) :
    Procedure → Except CodegenError (List Instruction)
  | .mk x b => do
    let slot ← offset (s.declare x.name .procedure none).1.symbol.slot
    let entry ← offset (a + 3)
    let is ← b.code (env.nest (s.declareProcedure (.mk x b))) (a + 3)
    let skip ← offset (a + 3 + is.length)
    return .make .lit 0 entry :: .make .sto 0 slot :: .make .jmp 0 skip :: is

/-- The code of procedures declared one after the other in the scope `s`. -/
def Procedure.codes (env : Environment) (s : Scope) (a : Nat) :
    List Procedure → Except CodegenError (List Instruction)
  | [] => return []
  | p :: ps => do
    let is ← p.code env s a
    let js ← Procedure.codes env (s.declareProcedure p) (a + is.length) ps
    return is ++ js

end

/-! ## Reading the equations backwards

From code that is there, the code of the parts is recovered, with the addresses that are in it.
Every equivalence of this kind is a rewriting of the equations above. -/

/-- A computation succeeds exactly if its parts do. -/
theorem bind_eq_ok_iff {ε α β : Type} {x : Except ε α} {f : α → Except ε β} {b : β} :
    x >>= f = .ok b ↔ ∃ a, x = .ok a ∧ f a = .ok b := by
  cases x <;> simp [bind, Except.bind]

/-- What is answered at once is the answer. -/
theorem pure_eq_ok_iff {ε α : Type} {a b : α} : (pure a : Except ε α) = .ok b ↔ a = b := by
  simp [pure, Except.pure]

/-- An offset holds every number that is a word. -/
theorem offset_eq_ok_iff {n : Nat} {v : Int} :
    offset n = .ok v ↔ v = n ∧ Word.InRange n := by
  unfold offset Code.offset?
  cases h : Word.checked (n : Int) with
  | none => simp [Word.checked_eq_none_iff.1 h]
  | some w =>
    obtain ⟨hr, rfl⟩ := Word.checked_eq_some_iff.1 h
    simp [hr, eq_comm]

/-- To locate a name is to resolve it, if it has an address. -/
theorem locate_eq_ok_iff {env : Environment} {x : Ident} {a : Address} :
    env.locate x = .ok a ↔ env.resolve x.name = some a := by
  unfold Environment.locate
  cases env.resolve x.name <;> simp

/-- Channels are resolved like any other name. -/
theorem channel_eq_ok_iff {env : Environment} {name : String} {a : Address} :
    env.channel name = .ok a ↔ env.resolve name = some a := by
  unfold Environment.channel
  cases env.resolve name <;> simp

/-- An access is one instruction, whose offset is the slot. -/
theorem accessCode_eq_ok_iff {op : OpCode} {a : Address} {is : List Instruction} :
    accessCode op a = .ok is ↔
      is = [.make op a.level a.symbol.slot] ∧ Word.InRange a.symbol.slot := by
  unfold accessCode
  rw [bind_eq_ok_iff]
  simp only [offset_eq_ok_iff, pure_eq_ok_iff]
  constructor
  · rintro ⟨v, ⟨rfl, hr⟩, rfl⟩
    exact ⟨rfl, hr⟩
  · rintro ⟨rfl, hr⟩
    exact ⟨_, ⟨rfl, hr⟩, rfl⟩

/-! ## The parts of the code of a node

A node has code exactly if its parts have, and what it adds to them fits into offsets. -/

section

variable {env : Environment} {a : Nat} {is : List Instruction} {x : Ident} {e l r : Expr}
  {c : Condition} {body : Statement}

/-- Code of a list: that of its first element, and that of the others behind it. -/
theorem collect_cons_eq_ok_iff {α : Type} {f : α → Except CodegenError (List Instruction)} {y : α}
    {ys : List α} : collect f (y :: ys) = .ok is ↔
      ∃ js, f y = .ok js ∧ ∃ ks, collect f ys = .ok ks ∧ js ++ ks = is := by
  simp only [collect, bind_eq_ok_iff, pure_eq_ok_iff]

theorem Terms.code_join_eq_ok_iff {ts : Terms} {op : AddOp} {t : Term} :
    (Terms.join ts op t).code env = .ok is ↔ ∃ ls, ts.code env = .ok ls ∧
      ∃ rs, t.code env = .ok rs ∧ ls ++ rs ++ [.apply (.arith op.arith)] = is := by
  simp only [Terms.code, bind_eq_ok_iff, pure_eq_ok_iff]

theorem Term.code_join_eq_ok_iff {t : Term} {op : MulOp} {f : Factor} :
    (Term.join t op f).code env = .ok is ↔ ∃ ls, t.code env = .ok ls ∧
      ∃ rs, f.code env = .ok rs ∧ ls ++ rs ++ [.apply (.arith op.arith)] = is := by
  simp only [Term.code, bind_eq_ok_iff, pure_eq_ok_iff]

/-- A name that is loaded has been resolved. -/
theorem Factor.code_ident_eq_ok_iff : (Factor.ident x).code env = .ok is ↔
    ∃ b, env.resolve x.name = some b ∧ is = [.make .lod b.level b.symbol.slot] ∧
      Word.InRange b.symbol.slot := by
  simp only [Factor.code, bind_eq_ok_iff, locate_eq_ok_iff, accessCode_eq_ok_iff]

theorem Condition.code_odd_eq_ok_iff : (Condition.odd e).code env = .ok is ↔
    ∃ es, e.code env = .ok es ∧ es ++ [.apply .odd] = is := by
  simp only [Condition.code, bind_eq_ok_iff, pure_eq_ok_iff]

theorem Condition.code_compare_eq_ok_iff {rel : Relation} :
    (Condition.compare l rel r).code env = .ok is ↔ ∃ ls, l.code env = .ok ls ∧
      ∃ rs, r.code env = .ok rs ∧ ls ++ rs ++ [.apply (.relation rel)] = is := by
  simp only [Condition.code, bind_eq_ok_iff, pure_eq_ok_iff]

/-- A target of `read` has been resolved, and takes two instructions. -/
theorem readCode_eq_ok_iff {input : Address} : readCode env input x = .ok is ↔
    ∃ b, env.resolve x.name = some b ∧ Word.InRange input.symbol.slot ∧
      Word.InRange b.symbol.slot ∧ [.make .lod input.level input.symbol.slot] ++
        [.make .sto b.level b.symbol.slot] = is := by
  simp only [readCode, bind_eq_ok_iff, pure_eq_ok_iff, locate_eq_ok_iff, accessCode_eq_ok_iff,
    and_assoc, exists_eq_left]

/-- A value of `write` is followed by one instruction. -/
theorem writeCode_eq_ok_iff {output : Address} : writeCode env output e = .ok is ↔
    ∃ es, e.code env = .ok es ∧ Word.InRange output.symbol.slot ∧
      es ++ [.make .sto output.level output.symbol.slot] = is := by
  simp only [writeCode, bind_eq_ok_iff, pure_eq_ok_iff, accessCode_eq_ok_iff, and_assoc,
    exists_eq_left]

theorem Statement.code_read_eq_ok_iff {targets : List Ident} :
    (Statement.read targets).code env a = .ok is ↔ ∃ input,
      env.resolve readChannel = some input ∧ collect (readCode env input) targets = .ok is := by
  simp only [Statement.code, bind_eq_ok_iff, channel_eq_ok_iff]

theorem Statement.code_write_eq_ok_iff {values : List Expr} :
    (Statement.write values).code env a = .ok is ↔ ∃ output,
      env.resolve writeChannel = some output ∧ collect (writeCode env output) values = .ok is := by
  simp only [Statement.code, bind_eq_ok_iff, channel_eq_ok_iff]

theorem Statement.code_call_eq_ok_iff : (Statement.call x).code env a = .ok is ↔
    ∃ b, env.resolve x.name = some b ∧ is = [.make .cal b.level b.symbol.slot] ∧
      Word.InRange b.symbol.slot := by
  simp only [Statement.code, bind_eq_ok_iff, locate_eq_ok_iff, accessCode_eq_ok_iff]

/-- The `JPC` leads behind the loop, the `JMP` back to the test. -/
theorem Statement.code_whileDo_eq_ok_iff : (Statement.whileDo c body).code env a = .ok is ↔
    ∃ test, c.code env = .ok test ∧ ∃ bs, body.code env (a + test.length + 1) = .ok bs ∧
      Word.InRange a ∧ Word.InRange (a + test.length + 1 + bs.length + 1 : Nat) ∧
      test ++ .make .jpc 0 ((a + test.length + 1 + bs.length + 1 : Nat) : Int) ::
        (bs ++ [.make .jmp 0 (a : Int)]) = is := by
  simp only [Statement.code, bind_eq_ok_iff, pure_eq_ok_iff, offset_eq_ok_iff, and_assoc,
    exists_eq_left]

/-- The target is resolved behind the expression, and stored to. -/
theorem Statement.code_assign_eq_ok_iff : (Statement.assign x e).code env a = .ok is ↔
    ∃ es, e.code env = .ok es ∧ ∃ b, env.resolve x.name = some b ∧
      Word.InRange b.symbol.slot ∧ es ++ [.make .sto b.level b.symbol.slot] = is := by
  simp only [Statement.code, bind_eq_ok_iff, pure_eq_ok_iff, locate_eq_ok_iff,
    accessCode_eq_ok_iff, and_assoc, exists_eq_left]

/-- The `JPC` leads behind the branch. -/
theorem Statement.code_ifThen_eq_ok_iff : (Statement.ifThen c body).code env a = .ok is ↔
    ∃ test, c.code env = .ok test ∧ ∃ bs, body.code env (a + test.length + 1) = .ok bs ∧
      Word.InRange (a + test.length + 1 + bs.length : Nat) ∧
      test ++ .make .jpc 0 ((a + test.length + 1 + bs.length : Nat) : Int) :: bs = is := by
  simp only [Statement.code, bind_eq_ok_iff, pure_eq_ok_iff, offset_eq_ok_iff, and_assoc,
    exists_eq_left]

/-- The next statement starts where the code of the one before it ends. -/
theorem Statement.codes_cons_eq_ok_iff {s : Statement} {ss : List Statement} :
    Statement.codes env a (s :: ss) = .ok is ↔ ∃ js, s.code env a = .ok js ∧
      ∃ ks, Statement.codes env (a + js.length) ss = .ok ks ∧ js ++ ks = is := by
  simp only [Statement.codes, bind_eq_ok_iff, pure_eq_ok_iff]

/-- A constant has two instructions, and its slot is a word. -/
theorem constCode_eq_ok_iff {s : Scope} {d : ConstDecl} : constCode s d = .ok is ↔
    Word.InRange (s.declare d.name.name .const (some d.value.value)).1.symbol.slot ∧
      [.make .lit 0 d.value.value, .make .sto 0
        ((s.declare d.name.name .const (some d.value.value)).1.symbol.slot : Int)] = is := by
  simp only [constCode, bind_eq_ok_iff, pure_eq_ok_iff, offset_eq_ok_iff, and_assoc,
    exists_eq_left]

/-- The next constant is declared in a scope that has the one before it. -/
theorem constsCode_cons_eq_ok_iff {s : Scope} {d : ConstDecl} {ds : List ConstDecl} :
    constsCode s (d :: ds) = .ok is ↔ ∃ js, constCode s d = .ok js ∧
      ∃ ks, constsCode (s.declareConst d) ds = .ok ks ∧ js ++ ks = is := by
  simp only [constsCode, bind_eq_ok_iff, pure_eq_ok_iff]

/-- The `INT` makes room for all names of the block. -/
theorem Block.code_eq_ok_iff {b : Block} : b.code env a = .ok is ↔
    ∃ cs, constsCode Scope.empty b.consts = .ok cs ∧
      ∃ ps, Procedure.codes env b.dataScope (a + 1 + cs.length) b.procedures = .ok ps ∧
      ∃ bs, b.body.code (env.nest b.scope) (a + 1 + cs.length + ps.length) = .ok bs ∧
        Word.InRange b.scope.size ∧
        .make .int 0 (b.scope.size : Int) :: (cs ++ ps ++ bs ++ [.leave]) = is := by
  cases b with
  | mk consts vars ps body =>
    simp only [Block.code, bind_eq_ok_iff, pure_eq_ok_iff, offset_eq_ok_iff, and_assoc,
      exists_eq_left]
    rfl

/-- The block of a procedure lies behind the three instructions that store its address and jump
    over it. -/
theorem Procedure.code_eq_ok_iff {s : Scope} {p : Procedure} : p.code env s a = .ok is ↔
    Word.InRange (s.declare p.name.name .procedure none).1.symbol.slot ∧
      Word.InRange (a + 3 : Nat) ∧
      ∃ bs, p.block.code (env.nest (s.declareProcedure p)) (a + 3) = .ok bs ∧
        Word.InRange (a + 3 + bs.length : Nat) ∧
        .make .lit 0 ((a + 3 : Nat) : Int) ::
          .make .sto 0 ((s.declare p.name.name .procedure none).1.symbol.slot : Int) ::
          .make .jmp 0 ((a + 3 + bs.length : Nat) : Int) :: bs = is := by
  cases p with
  | mk x b =>
    simp only [Procedure.code, bind_eq_ok_iff, pure_eq_ok_iff, offset_eq_ok_iff, and_assoc,
      exists_eq_left]
    rfl

/-- The next procedure starts behind the block of the one before it. -/
theorem Procedure.codes_cons_eq_ok_iff {s : Scope} {p : Procedure} {ps : List Procedure} :
    Procedure.codes env s a (p :: ps) = .ok is ↔ ∃ js, p.code env s a = .ok js ∧
      ∃ ks, Procedure.codes env (s.declareProcedure p) (a + js.length) ps = .ok ks ∧
        js ++ ks = is := by
  simp only [Procedure.codes, bind_eq_ok_iff, pure_eq_ok_iff]

end

end PL0
