import PL0.Proofs.Codegen.Names
import PL0.Proofs.Machine.Stepping

/-!
# `Codegen.Balance` — operand heights

Every instruction takes a number of operands from the stack and puts a number back
(`Instruction.pops`, `Instruction.pushes`). A call counts as neutral: it leaves a return address,
and the subprogram that it enters takes it away. So a piece of code that control passes from its
first to its last instruction leads from one operand height to another (`Balanced`), and the height
in front of each instruction of a program is found by adding up (`heightAt`).

Main statements: expressions leave one value, statements and blocks none (`Expr.balanced_code`,
`Statement.balanced_code`, `Block.balanced_code`), and a jump of a statement leads to a place of
height 0 in the code of this statement (`Statement.closed_code`).
-/

namespace PL0

open Codegen

/-! ## Effects of instructions

An instruction that transfers control may be reached, or may lead, from elsewhere. So that the
height at a place does not depend on the way there, it is asked of these instructions that they
leave nothing below what they take. -/

namespace Instruction

/-- Whether the instruction may go on elsewhere than behind itself, or opens a block. -/
def transfers : Instruction → Bool
  | ⟨.cal, _, _⟩ => true
  | ⟨.int, _, _⟩ => true
  | ⟨.jmp, _, _⟩ => true
  | ⟨.jpc, _, _⟩ => true
  | ⟨.opr, _, .number _⟩ => true
  | _ => false

/-- Where the instruction jumps to. -/
def target? : Instruction → Option Int
  | ⟨.jmp, _, .number n⟩ => some n
  | ⟨.jpc, _, .number n⟩ => some n
  | _ => none

/-- The height behind the instruction where it is `h` in front of it. -/
def heightAfter (h : Nat) (i : Instruction) : Nat := h - i.pops + i.pushes

end Instruction

/-- Code that leads from height `h` to height `h'`: every instruction finds its operands, and those
    that transfer control find nothing else. -/
def Balanced (h : Nat) : List Instruction → Nat → Prop
  | [], h' => h = h'
  | i :: is, h' =>
    i.pops ≤ h ∧ (i.transfers = true → h = i.pops) ∧ Balanced (i.heightAfter h) is h'

/-- The operand height in front of an address. -/
def heightAt (code : Array Instruction) (x : Nat) : Nat :=
  (code.toList.take x).foldl Instruction.heightAfter 0

namespace Balanced

variable {h h' h'' : Nat} {i : Instruction} {is js : List Instruction}

theorem nil (h : Nat) : Balanced h [] h := rfl

/-- Heights add up along code. -/
theorem append (his : Balanced h is h') (hjs : Balanced h' js h'') :
    Balanced h (is ++ js) h'' := by
  induction is generalizing h with
  | nil => exact (show h = h' from his) ▸ hjs
  | cons i is ih =>
    obtain ⟨hpops, htransfers, hrest⟩ := his
    exact ⟨hpops, htransfers, ih hrest⟩

/-- Balanced code leads to the height that adding up foretells. -/
theorem foldl (his : Balanced h is h') : is.foldl Instruction.heightAfter h = h' := by
  induction is generalizing h with
  | nil => exact his
  | cons i is ih => exact ih his.2.2

/-- What an instruction within the code finds on the stack. -/
theorem get (his : Balanced h is h') {k : Nat} (hi : is[k]? = some i) :
    i.pops ≤ (is.take k).foldl Instruction.heightAfter h ∧
      (i.transfers = true → (is.take k).foldl Instruction.heightAfter h = i.pops) := by
  induction is generalizing h k with
  | nil => simp at hi
  | cons j is ih =>
    cases k with
    | zero =>
      cases hi
      exact ⟨his.1, his.2.1⟩
    | succ k => exact ih his.2.2 hi

/-- The single instructions: an access or a constant puts one value on the stack or takes one away,
    at any height. -/
theorem literal (h : Nat) (level : Nat) (n : Int) :
    Balanced h [.make .lit level n] (h + 1) :=
  ⟨Nat.zero_le _, nofun, rfl⟩

theorem load (h level : Nat) (n : Int) : Balanced h [.make .lod level n] (h + 1) :=
  ⟨Nat.zero_le _, nofun, rfl⟩

theorem store (h level : Nat) (n : Int) : Balanced (h + 1) [.make .sto level n] h :=
  ⟨Nat.le_add_left .., nofun, rfl⟩

theorem arith (h : Nat) (op : Arith) : Balanced (h + 2) [.apply (.arith op)] (h + 1) :=
  ⟨Nat.le_add_left .., nofun, rfl⟩

theorem relation (h : Nat) (r : Relation) : Balanced (h + 2) [.apply (.relation r)] (h + 1) :=
  ⟨Nat.le_add_left .., nofun, rfl⟩

theorem odd (h : Nat) : Balanced (h + 1) [.apply .odd] (h + 1) :=
  ⟨Nat.le_add_left .., nofun, rfl⟩

/-- Those that transfer control are balanced at one height only. -/
theorem jmp (n : Int) : Balanced 0 [.make .jmp 0 n] 0 := ⟨Nat.le_refl _, fun _ => rfl, rfl⟩

theorem jpc (n : Int) : Balanced 1 [.make .jpc 0 n] 0 := ⟨Nat.le_refl _, fun _ => rfl, rfl⟩

theorem cal (level : Nat) (n : Int) : Balanced 0 [.make .cal level n] 0 :=
  ⟨Nat.le_refl _, fun _ => rfl, rfl⟩

theorem int (n : Int) : Balanced 0 [.make .int 0 n] 0 := ⟨Nat.le_refl _, fun _ => rfl, rfl⟩

theorem leave : Balanced 0 [.leave] 0 := ⟨Nat.le_refl _, fun _ => rfl, rfl⟩

end Balanced

/-! ## Heights of the code of every tree

By induction on the tree, with the code of each node taken apart by its equation from
`Codegen.Emission`. The height is arbitrary for an expression, as its operands are computed on top
of each other, and 0 for a statement. -/

mutual

/-- **An expression leaves one value.** -/
theorem Expr.balanced_code {e : Expr} {env : Environment} {is : List Instruction}
    (hc : e.code env = .ok is) (h : Nat) : Balanced h is (h + 1) := by
  cases e with
  | mk sign ts =>
    have hts : ts.code env = .ok is := hc
    exact Terms.balanced_code hts h

/-- The right operand is computed one above the left one, and the operator takes both. -/
theorem Terms.balanced_code {ts : Terms} {env : Environment} {is : List Instruction}
    (hc : ts.code env = .ok is) (h : Nat) : Balanced h is (h + 1) := by
  cases ts with
  | single t => exact Term.balanced_code (t := t) hc h
  | join left op right =>
    obtain ⟨ls, hl, rs, hr, rfl⟩ := Terms.code_join_eq_ok_iff.1 hc
    have hlr := (Terms.balanced_code hl h).append (Term.balanced_code hr (h + 1))
    exact hlr.append (Balanced.arith h _)

theorem Term.balanced_code {t : Term} {env : Environment} {is : List Instruction}
    (hc : t.code env = .ok is) (h : Nat) : Balanced h is (h + 1) := by
  cases t with
  | single f => exact Factor.balanced_code (f := f) hc h
  | join left op right =>
    obtain ⟨ls, hl, rs, hr, rfl⟩ := Term.code_join_eq_ok_iff.1 hc
    have hlr := (Term.balanced_code hl h).append (Factor.balanced_code hr (h + 1))
    exact hlr.append (Balanced.arith h _)

/-- A name or a number puts its value on the stack. -/
theorem Factor.balanced_code {f : Factor} {env : Environment} {is : List Instruction}
    (hc : f.code env = .ok is) (h : Nat) : Balanced h is (h + 1) := by
  cases f with
  | ident x =>
    obtain ⟨a, -, rfl, -⟩ := Factor.code_ident_eq_ok_iff.1 hc
    exact Balanced.load h ..
  | number n =>
    cases pure_eq_ok_iff.1 hc
    exact Balanced.literal h ..
  | group e => exact Expr.balanced_code (e := e) hc h

end

/-- A condition leaves its truth value. -/
theorem Condition.balanced_code {c : Condition} {env : Environment} {is : List Instruction}
    (hc : c.code env = .ok is) (h : Nat) : Balanced h is (h + 1) := by
  cases c with
  | odd e =>
    obtain ⟨ls, hl, rfl⟩ := Condition.code_odd_eq_ok_iff.1 hc
    exact (Expr.balanced_code hl h).append (Balanced.odd h)
  | compare left r right =>
    obtain ⟨ls, hl, rs, hr, rfl⟩ := Condition.code_compare_eq_ok_iff.1 hc
    have hlr := (Expr.balanced_code hl h).append (Expr.balanced_code hr (h + 1))
    exact hlr.append (Balanced.relation h r)

/-- What is loaded from the channel is stored at once. -/
theorem balanced_readCode {env : Environment} {input : Address} {x : Ident}
    {is : List Instruction} (h : readCode env input x = .ok is) : Balanced 0 is 0 := by
  obtain ⟨a, -, -, -, rfl⟩ := readCode_eq_ok_iff.1 h
  exact (Balanced.load 0 ..).append (Balanced.store 0 ..)

theorem balanced_writeCode {env : Environment} {output : Address} {e : Expr}
    {is : List Instruction} (h : writeCode env output e = .ok is) : Balanced 0 is 0 := by
  obtain ⟨es, he, -, rfl⟩ := writeCode_eq_ok_iff.1 h
  exact (Expr.balanced_code he 0).append (Balanced.store 0 ..)

/-- If the code of each phrase leaves nothing, neither does that of a list. -/
theorem Balanced.collect {α : Type} {f : α → Except CodegenError (List Instruction)}
    (hf : ∀ x is, f x = .ok is → Balanced 0 is 0) :
    ∀ {as : List α} {is : List Instruction}, collect f as = .ok is → Balanced 0 is 0 := by
  intro as
  induction as with
  | nil =>
    intro is h
    cases pure_eq_ok_iff.1 h
    exact Balanced.nil 0
  | cons x as ih =>
    intro is h
    obtain ⟨is, his, js, hjs, rfl⟩ := collect_cons_eq_ok_iff.1 h
    exact (hf x is his).append (ih hjs)

mutual

/-- **A statement leaves nothing.** -/
theorem Statement.balanced_code {s : Statement} {env : Environment} {a : Nat}
    {is : List Instruction} (h : s.code env a = .ok is) : Balanced 0 is 0 := by
  cases s with
  | empty =>
    cases pure_eq_ok_iff.1 h
    exact Balanced.nil 0
  | block body =>
    have hbody : Statement.codes env a body = .ok is := h
    exact Statement.balanced_codes hbody
  | read targets =>
    obtain ⟨input, -, h⟩ := Statement.code_read_eq_ok_iff.1 h
    exact Balanced.collect (fun _ _ => balanced_readCode) h
  | write values =>
    obtain ⟨output, -, h⟩ := Statement.code_write_eq_ok_iff.1 h
    exact Balanced.collect (fun _ _ => balanced_writeCode) h
  | call x =>
    obtain ⟨a, -, rfl, -⟩ := Statement.code_call_eq_ok_iff.1 h
    exact Balanced.cal ..
  | whileDo c body =>
    obtain ⟨test, ht, bs, hb, -, -, rfl⟩ := Statement.code_whileDo_eq_ok_iff.1 h
    have htest := Condition.balanced_code ht 0
    have hbody := Statement.balanced_code hb
    -- The `JPC` takes the truth value, so the body starts and the jump back finds height 0.
    rw [List.append_cons]
    exact (htest.append (Balanced.jpc _)).append (hbody.append (Balanced.jmp _))
  | assign x e =>
    obtain ⟨es, he, a, -, -, rfl⟩ := Statement.code_assign_eq_ok_iff.1 h
    exact (Expr.balanced_code he 0).append (Balanced.store 0 ..)
  | ifThen c body =>
    obtain ⟨test, ht, bs, hb, -, rfl⟩ := Statement.code_ifThen_eq_ok_iff.1 h
    have htest := Condition.balanced_code ht 0
    rw [List.append_cons]
    exact (htest.append (Balanced.jpc _)).append (Statement.balanced_code hb)

/-- Statements one behind the other leave nothing. -/
theorem Statement.balanced_codes {ss : List Statement} {env : Environment} {a : Nat}
    {is : List Instruction} (h : Statement.codes env a ss = .ok is) : Balanced 0 is 0 := by
  cases ss with
  | nil =>
    cases pure_eq_ok_iff.1 h
    exact Balanced.nil 0
  | cons s ss =>
    obtain ⟨is, his, js, hjs, rfl⟩ := Statement.codes_cons_eq_ok_iff.1 h
    exact (Statement.balanced_code his).append (Statement.balanced_codes hjs)

end

/-- Constants are put on the stack and stored. -/
theorem balanced_constsCode {ds : List ConstDecl} {s : Scope} {is : List Instruction}
    (h : constsCode s ds = .ok is) : Balanced 0 is 0 := by
  induction ds generalizing s is with
  | nil =>
    cases pure_eq_ok_iff.1 h
    exact Balanced.nil 0
  | cons d ds ih =>
    obtain ⟨is, his, js, hjs, rfl⟩ := constsCode_cons_eq_ok_iff.1 h
    obtain ⟨-, rfl⟩ := constCode_eq_ok_iff.1 his
    exact ((Balanced.literal 0 0 _).append (Balanced.store 0 0 _)).append (ih hjs)

mutual

/-- **A block leaves nothing**, whatever its procedures. -/
theorem Block.balanced_code {b : Block} {env : Environment} {a : Nat} {is : List Instruction}
    (h : b.code env a = .ok is) : Balanced 0 is 0 := by
  cases b with
  | mk consts vars procedures body =>
    obtain ⟨cs, hcs, ps, hps, bs, hbs, -, rfl⟩ := Block.code_eq_ok_iff.1 h
    have hp : Balanced 0 ps 0 := Procedure.balanced_codes hps
    have hb : Balanced 0 bs 0 := Statement.balanced_code hbs
    have hinner := (((balanced_constsCode hcs).append hp).append hb).append Balanced.leave
    exact (Balanced.int _).append hinner

/-- The code of a procedure leaves nothing either. -/
theorem Procedure.balanced_code {p : Procedure} {env : Environment} {s : Scope} {a : Nat}
    {is : List Instruction} (h : p.code env s a = .ok is) : Balanced 0 is 0 := by
  cases p with
  | mk x b =>
    obtain ⟨-, -, bs, hbs, -, rfl⟩ := Procedure.code_eq_ok_iff.1 h
    -- Control jumps over the block; adding up goes through it, which comes to the same.
    have hb : Balanced 0 bs 0 := Block.balanced_code (b := b) hbs
    exact (Balanced.literal 0 0 _).append ((Balanced.store 0 0 _).append
      ((Balanced.jmp _).append hb))

theorem Procedure.balanced_codes {ps : List Procedure} {env : Environment} {s : Scope} {a : Nat}
    {is : List Instruction} (h : Procedure.codes env s a ps = .ok is) : Balanced 0 is 0 := by
  cases ps with
  | nil =>
    cases pure_eq_ok_iff.1 h
    exact Balanced.nil 0
  | cons p ps =>
    obtain ⟨is, his, js, hjs, rfl⟩ := Procedure.codes_cons_eq_ok_iff.1 h
    exact (Procedure.balanced_code his).append (Procedure.balanced_codes hjs)

end

/-! ## Heights in the code of a program

The code of a program is balanced as a whole. The height in front of an instruction is the sum over
all instructions in front of it, those of other procedures included; they add up to nothing. -/

/-- Adding up goes on behind a piece of code. -/
theorem heightAt_add {code : Array Instruction} {a h h' : Nat} {is : List Instruction}
    (hl : Located code a is) (ha : heightAt code a = h) (hb : Balanced h is h') :
    heightAt code (a + is.length) = h' := by
  obtain ⟨front, back, hcode, hlen⟩ := hl
  have hfront : code.toList.take a = front := by
    rw [hcode, List.append_assoc, ← hlen, List.take_left]
  -- In front of the address behind the code lies what is in front of `a`, and the code itself.
  have hlonger : code.toList.take (a + is.length) = front ++ is := by
    rw [hcode, ← hlen, ← List.length_append, List.take_left]
  unfold heightAt at *
  rw [hlonger, List.foldl_append, ← hfront, ha]
  exact hb.foldl

/-- From one instruction to the next, the height changes by what the instruction does. -/
theorem heightAt_succ {code : Array Instruction} {x : Nat} {i : Instruction}
    (hi : code[x]? = some i) : heightAt code (x + 1) = i.heightAfter (heightAt code x) := by
  unfold heightAt
  rw [← Array.getElem?_toList] at hi
  rw [List.take_add_one, hi, List.foldl_append]
  rfl

/-- **Every instruction of a program finds its operands**, and where it transfers control nothing
    else. -/
theorem Program.pops_le_heightAt {p : Program} {code : Array Instruction}
    (hc : p.compile.1 = .ok code) {x : Nat} {i : Instruction} (hi : code[x]? = some i) :
    i.pops ≤ heightAt code x ∧ (i.transfers = true → heightAt code x = i.pops) := by
  have hb : Balanced 0 code.toList 0 := Block.balanced_code (Program.block_code_of_compile hc)
  rw [← Array.getElem?_toList] at hi
  exact hb.get hi

/-! ## Jumps

All jumps come from loops, conditional statements and procedures. Those of a statement stay in its
code, at most directly behind it, and arrive between its parts, where the height is 0. -/

/-- No instruction transfers control. -/
def Straight (is : List Instruction) : Prop := ∀ i ∈ is, i.transfers = false

theorem Straight.append {is js : List Instruction} (his : Straight is) (hjs : Straight js) :
    Straight (is ++ js) := by
  intro i hi
  rcases List.mem_append.1 hi with hi | hi
  · exact his i hi
  · exact hjs i hi

theorem Straight.single {i : Instruction} (h : i.transfers = false) : Straight [i] := by
  intro j hj
  rw [List.mem_singleton.1 hj]
  exact h

/-- An instruction that transfers no control does not jump. -/
theorem Instruction.target?_eq_none {i : Instruction} (h : i.transfers = false) :
    i.target? = none := by
  obtain ⟨op, level, n | op'⟩ := i
  · cases op <;> first | rfl | cases h
  · cases op <;> rfl

/-- Expressions consist of constants, loads and operators. -/
theorem exprProperty_straight (env : Environment) (xs : List Ident) :
    ExprProperty env xs fun i => i.transfers = false where
  literal := fun _ => rfl
  operator := fun _ => rfl
  load := fun _ _ _ _ => rfl

section

variable {env : Environment} {is : List Instruction}

/-- The code of an expression is straight. -/
theorem Expr.straight_code {e : Expr} (h : e.code env = .ok is) : Straight is :=
  Expr.forall_code (exprProperty_straight env _) h

theorem Terms.straight_code {ts : Terms} (h : ts.code env = .ok is) : Straight is :=
  Terms.forall_code (exprProperty_straight env _) h

theorem Term.straight_code {t : Term} (h : t.code env = .ok is) : Straight is :=
  Term.forall_code (exprProperty_straight env _) h

theorem Factor.straight_code {f : Factor} (h : f.code env = .ok is) : Straight is :=
  Factor.forall_code (exprProperty_straight env _) h

theorem Condition.straight_code {c : Condition} (h : c.code env = .ok is) : Straight is :=
  Condition.forall_code (exprProperty_straight env _) h

end

/-- The code of `read` does not jump, nor does that of `write`. -/
theorem straight_readCode {env : Environment} {input : Address} {x : Ident}
    {is : List Instruction} (h : readCode env input x = .ok is) : Straight is := by
  obtain ⟨a, -, -, -, rfl⟩ := readCode_eq_ok_iff.1 h
  exact (Straight.single rfl).append (Straight.single rfl)

theorem straight_writeCode {env : Environment} {output : Address} {e : Expr}
    {is : List Instruction} (h : writeCode env output e = .ok is) : Straight is := by
  obtain ⟨es, he, -, rfl⟩ := writeCode_eq_ok_iff.1 h
  exact (Expr.straight_code he).append (Straight.single rfl)

theorem Straight.collect {α : Type} {f : α → Except CodegenError (List Instruction)}
    (hf : ∀ x is, f x = .ok is → Straight is) :
    ∀ {as : List α} {is : List Instruction}, collect f as = .ok is → Straight is := by
  intro as
  induction as with
  | nil =>
    intro is h
    cases pure_eq_ok_iff.1 h
    exact fun _ hi => absurd hi List.not_mem_nil
  | cons x as ih =>
    intro is h
    obtain ⟨is, his, js, hjs, rfl⟩ := collect_cons_eq_ok_iff.1 h
    exact (hf x is his).append (ih hjs)

/-- The address is one of code that starts at `a`, or the one behind it, and the height there
    is 0. -/
def Lands (a : Nat) (is : List Instruction) (target : Int) : Prop :=
  ∃ front back, is = front ++ back ∧ Balanced 0 front 0 ∧ target = ((a + front.length : Nat) : Int)

/-- All jumps in code that starts at `a` lead to a place of height 0 in it. -/
def Closed (a : Nat) (is : List Instruction) : Prop :=
  ∀ i ∈ is, ∀ target, i.target? = some target → Lands a is target

namespace Lands

variable {a : Nat} {is js : List Instruction} {target : Int}

/-- A jump to the first instruction of the code. -/
theorem start (a : Nat) (is : List Instruction) : Lands a is a :=
  ⟨[], is, rfl, Balanced.nil 0, rfl⟩

/-- A jump to the place behind the last one. -/
theorem finish (hb : Balanced 0 is 0) (ht : target = ((a + is.length : Nat) : Int)) :
    Lands a is target :=
  ⟨is, [], (List.append_nil is).symm, hb, ht⟩

/-- A place in code is one in longer code. -/
theorem left (h : Lands a is target) (js : List Instruction) : Lands a (is ++ js) target := by
  obtain ⟨front, back, rfl, hb, ht⟩ := h
  exact ⟨front, back ++ js, List.append_assoc .., hb, ht⟩

/-- Code that leaves nothing may also stand in front. -/
theorem right (hb : Balanced 0 is 0) (h : Lands (a + is.length) js target) :
    Lands a (is ++ js) target := by
  obtain ⟨front, back, rfl, hfront, ht⟩ := h
  refine ⟨is ++ front, back, (List.append_assoc ..).symm, hb.append hfront, ?_⟩
  rw [ht, List.length_append, Nat.add_assoc]

/-- A place in the code behind a test. -/
theorem behind {n : Int} (hb : Balanced 0 is 1) (h : Lands (a + is.length + 1) js target) :
    Lands a (is ++ .make .jpc 0 n :: js) target := by
  rw [List.append_cons]
  refine Lands.right (hb.append (Balanced.jpc n)) ?_
  rwa [List.length_append, List.length_singleton, ← Nat.add_assoc]

end Lands

namespace Closed

variable {a : Nat} {is js : List Instruction}

theorem nil (a : Nat) : Closed a [] := fun _ hi => absurd hi List.not_mem_nil

/-- Code without jumps has none that leads elsewhere. -/
theorem of_straight (a : Nat) (h : Straight is) : Closed a is := by
  intro i hi target ht
  rw [Instruction.target?_eq_none (h i hi)] at ht
  cases ht

theorem append (hb : Balanced 0 is 0) (his : Closed a is) (hjs : Closed (a + is.length) js) :
    Closed a (is ++ js) := by
  intro i hi target ht
  rcases List.mem_append.1 hi with hi | hi
  · exact (his i hi target ht).left js
  · exact (hjs i hi target ht).right hb

end Closed

mutual

/-- **The jumps of a statement** lead to places of height 0 in its own code. -/
theorem Statement.closed_code {s : Statement} {env : Environment} {a : Nat}
    {is : List Instruction} (h : s.code env a = .ok is) : Closed a is := by
  have hwhole : Balanced 0 is 0 := Statement.balanced_code h
  cases s with
  | empty =>
    cases pure_eq_ok_iff.1 h
    exact Closed.nil a
  | block body =>
    have hbody : Statement.codes env a body = .ok is := h
    exact Statement.closed_codes hbody
  | read targets =>
    obtain ⟨input, -, h⟩ := Statement.code_read_eq_ok_iff.1 h
    exact Closed.of_straight a (Straight.collect (fun _ _ => straight_readCode) h)
  | write values =>
    obtain ⟨output, -, h⟩ := Statement.code_write_eq_ok_iff.1 h
    exact Closed.of_straight a (Straight.collect (fun _ _ => straight_writeCode) h)
  | call x =>
    obtain ⟨_, -, rfl, -⟩ := Statement.code_call_eq_ok_iff.1 h
    intro i hi target ht
    rw [List.mem_singleton.1 hi] at ht
    cases ht
  | whileDo c body =>
    obtain ⟨test, ht, bs, hb, -, -, rfl⟩ := Statement.code_whileDo_eq_ok_iff.1 h
    intro i hi target htarget
    simp only [List.mem_append, List.mem_cons, List.not_mem_nil, or_false] at hi
    -- A test has no jumps; the `JPC` leads behind the code, a jump of the body to a place in the
    -- body, and the `JMP` to the test.
    rcases hi with hi | rfl | hi | rfl
    · exact (Closed.of_straight a (Condition.straight_code ht) i hi target htarget).left _
    · cases htarget
      exact Lands.finish hwhole (by simp; omega)
    · have hin := (Statement.closed_code hb i hi target htarget).left [.make .jmp 0 (a : Int)]
      exact hin.behind (Condition.balanced_code ht 0)
    · cases htarget
      exact Lands.start a _
  | assign x e =>
    obtain ⟨es, he, b, -, -, rfl⟩ := Statement.code_assign_eq_ok_iff.1 h
    exact Closed.of_straight a ((Expr.straight_code he).append (Straight.single rfl))
  | ifThen c body =>
    obtain ⟨test, ht, bs, hb, -, rfl⟩ := Statement.code_ifThen_eq_ok_iff.1 h
    intro i hi target htarget
    simp only [List.mem_append, List.mem_cons] at hi
    -- As in a loop, without the jump back.
    rcases hi with hi | rfl | hi
    · exact (Closed.of_straight a (Condition.straight_code ht) i hi target htarget).left _
    · cases htarget
      exact Lands.finish hwhole (by simp; omega)
    · exact (Statement.closed_code hb i hi target htarget).behind (Condition.balanced_code ht 0)

/-- The jumps of a statement in a list stay within the list. -/
theorem Statement.closed_codes {ss : List Statement} {env : Environment} {a : Nat}
    {is : List Instruction} (h : Statement.codes env a ss = .ok is) : Closed a is := by
  cases ss with
  | nil =>
    cases pure_eq_ok_iff.1 h
    exact Closed.nil a
  | cons s ss =>
    obtain ⟨is, his, js, hjs, rfl⟩ := Statement.codes_cons_eq_ok_iff.1 h
    exact (Statement.closed_code his).append (Statement.balanced_code his)
      (Statement.closed_codes hjs)

end

end PL0
