import PL0.Proofs.Codegen.Balance
import PL0.Proofs.Codegen.Walk

/-!
# `Codegen.Relocation` — code that starts elsewhere

Of the instructions that a tree is made into, some hold addresses of the code itself: the jumps, and
the `LIT` that stands in front of each procedure with the address of its block. All others depend on
the tree and on the scopes around it only. So the code of a tree that starts `d` addresses further
on is the same code with `d` added to those offsets (`relocate`).

Which instructions are entries of procedures is told by the tree: `Block.entryMarks` goes along the
code and marks them (`Block.enters_code`). The addresses of the relocated code have to be offsets,
too, and where they are not it does not exist; `Yields` says how a computation may end.

Main statements: `Statement.relocate_code`, `Block.relocate_code` and `Procedure.relocate_codeFrom`.
-/

namespace PL0

namespace Instruction

/-- Whether the offset is where the instruction jumps to. -/
def jumps (i : Instruction) : Bool := i.op = .jmp || i.op = .jpc

/-- The instruction with `d` added to its offset, if that is a number. -/
def shift (d : Int) (i : Instruction) : Instruction :=
  match i.offset with
  | .number n => { i with offset := .number (n + d) }
  | .operator _ => i

/-- The instruction, which may be marked, in code that starts `d` addresses further on. -/
def relocate (d : Int) (mark : Bool) (i : Instruction) : Instruction :=
  if mark || i.jumps then i.shift d else i

/-- An instruction that does not transfer control is the same everywhere. -/
theorem relocate_of_not_transfers {i : Instruction} (h : i.transfers = false) (d : Int) :
    i.relocate d false = i := by
  obtain ⟨op, level, n⟩ := i
  cases op with
  | jmp | jpc => cases h
  | _ => rfl

end Instruction

/-- Code that starts `d` addresses further on: `d` is added to the offsets of its jumps and of its
    marked instructions. -/
def relocate (d : Int) : List Bool → List Instruction → List Instruction
  | _, [] => []
  | [], i :: is => i.relocate d false :: relocate d [] is
  | mark :: marks, i :: is => i.relocate d mark :: relocate d marks is

section

variable {d : Int} {marks marks' : List Bool} {is js : List Instruction}

/-- No code, no marks needed. -/
@[simp]
theorem relocate_nil : relocate d marks [] = [] := by
  cases marks <;> rfl

/-- Relocation replaces offsets and nothing else. -/
@[simp]
theorem length_relocate : (relocate d marks is).length = is.length := by
  induction is generalizing marks with
  | nil => simp
  | cons i is ih => cases marks <;> simp [relocate, ih]

/-- Code in turn, where the marks of the first part go along it. -/
theorem relocate_append (h : marks.length = is.length) :
    relocate d (marks ++ marks') (is ++ js) = relocate d marks is ++ relocate d marks' js := by
  induction is generalizing marks with
  | nil =>
    obtain rfl := List.eq_nil_of_length_eq_zero h
    simp
  | cons i is ih =>
    cases marks with
    | nil => cases h
    | cons mark marks => simp [relocate, ih (Nat.succ.inj h)]

/-- Code of statements has no marks. -/
theorem relocate_unmarked_append :
    relocate d [] (is ++ js) = relocate d [] is ++ relocate d [] js := by
  induction is with
  | nil => simp
  | cons i is ih => simp [relocate, ih]

/-- Marks that are all off might as well not be there. -/
theorem relocate_replicate (n : Nat) :
    relocate d (List.replicate n false) is = relocate d [] is := by
  induction is generalizing n with
  | nil => simp
  | cons i is ih =>
    cases n with
    | zero => rfl
    | succ n => simp [List.replicate_succ, relocate, ih n]

/-- Code without transfers is the same everywhere. -/
theorem Straight.relocate (h : Straight is) : relocate d [] is = is := by
  induction is with
  | nil => rfl
  | cons i is ih =>
    obtain ⟨hi, his⟩ := List.forall_mem_cons.1 h
    rw [PL0.relocate, i.relocate_of_not_transfers hi, ih his]

end

/-! ## Computations that may run out of offsets

Moved code may need an offset that is out of range though the original did not. The computation then
ends with the error for this, and with no other; moved towards the start of the buffer it always
succeeds. -/

/-- The computation has the value `v`; or it fails because a number below `bound` is too great for
    an offset, which needs `d` to be above 0. -/
def Yields {α : Type} (d : Int) (bound : Nat) (y : Except CodegenError α) (v : α) : Prop :=
  y = .ok v ∨ (y = .error (.buffer .tooLarge) ∧ 0 < d ∧ Word.greatest < (bound : Int))

namespace Yields

variable {α β : Type} {d : Int} {m n : Nat} {x : Except CodegenError α} {v w : α}
  {f : α → Except CodegenError β} {u : β}

/-- A computation that does not depend on the place. -/
theorem of_ok (h : x = .ok v) : Yields d n x v := .inl h

theorem pure (h : v = w) : Yields d n (pure v) w := .inl (h ▸ rfl)

/-- Straight code does not move with its place. -/
theorem of_straight {y : Except CodegenError (List Instruction)} {is : List Instruction}
    (his : Straight is) (h : y = .ok is) : Yields d n y (relocate d [] is) :=
  .of_ok (his.relocate.symm ▸ h)

/-- The bound may be raised. -/
theorem mono (h : Yields d m x v) (hmn : m ≤ n) : Yields d n x v := by
  rcases h with h | ⟨h, hd, hgreat⟩
  · exact .inl h
  · exact .inr ⟨h, hd, by omega⟩

/-- One computation after the other, both within the bound. -/
theorem bind (hx : Yields d n x v) (hf : Yields d n (f v) u) : Yields d n (x >>= f) u := by
  rcases hx with rfl | ⟨rfl, hd, hgreat⟩
  · exact hf
  · exact .inr ⟨rfl, hd, hgreat⟩

/-- An address that is an offset is one `d` addresses further on, too, or is too great there. -/
theorem offset {a a' : Nat} (h : Word.InRange a) (ha : (a' : Int) = a + d) (hn : a' ≤ n) :
    Yields d n (Codegen.offset a') (a + d) := by
  -- If the new address is out of range while the old one is not, the code has moved up.
  by_cases hr : Word.InRange a'
  · exact .inl (offset_eq_ok_iff.2 ⟨ha.symm, hr⟩)
  · refine .inr ⟨?_, ?_, ?_⟩
    · simp only [Codegen.offset, Code.offset?, Word.checked_eq_none_iff.2 hr]
    all_goals
      simp only [Word.InRange, Word.least, Word.greatest] at *
      omega

end Yields

/-! ## Statements

By induction on the statement, with its code taken apart and put together again at the new address.
Tests are straight and stay; a body moves as far as the test in front of it, since this is as long
as before. -/

open Codegen

mutual

/-- **The code of a statement, started elsewhere.** -/
theorem Statement.relocate_code {st : Statement} {env : Environment} {a a' : Nat} {d : Int}
    {is : List Instruction} (h : st.code env a = .ok is) (hd : (a' : Int) = a + d) :
    Yields d (a' + is.length) (st.code env a') (relocate d [] is) := by
  cases st with
  | empty =>
    obtain rfl := pure_eq_ok_iff.1 h
    exact .of_ok rfl
  | block body =>
    have hbody : Statement.codes env a body = .ok is := h
    exact Statement.relocate_codes hbody hd
  | read targets =>
    obtain ⟨input, -, hcode⟩ := Statement.code_read_eq_ok_iff.1 h
    exact .of_straight (Straight.collect (fun _ _ => straight_readCode) hcode) h
  | write values =>
    obtain ⟨output, -, hcode⟩ := Statement.code_write_eq_ok_iff.1 h
    exact .of_straight (Straight.collect (fun _ _ => straight_writeCode) hcode) h
  | call x =>
    obtain ⟨callee, -, rfl, -⟩ := Statement.code_call_eq_ok_iff.1 h
    exact .of_ok h
  | assign x e =>
    obtain ⟨es, hes, target, -, -, rfl⟩ := Statement.code_assign_eq_ok_iff.1 h
    exact .of_straight ((Expr.straight_code hes).append (Straight.single rfl)) h
  | ifThen c body =>
    obtain ⟨test, htest, bs, hbs, hskip, rfl⟩ := Statement.code_ifThen_eq_ok_iff.1 h
    have hd' : ((a' + test.length + 1 : Nat) : Int) = (a + test.length + 1 : Nat) + d := by omega
    have hbody := Statement.relocate_code hbs hd'
    have htest' : relocate d [] test = test := (Condition.straight_code htest).relocate
    rw [Statement.code, List.length_append, List.length_cons]
    refine (Yields.of_ok htest).bind ((hbody.mono (by omega)).bind ?_)
    -- The body is as long as it was, so that what it is skipped to has moved as far as the test.
    rw [length_relocate]
    refine (Yields.offset hskip (by omega) (by omega)).bind (Yields.pure ?_)
    rw [relocate_unmarked_append, htest']
    rfl
  | whileDo c body =>
    obtain ⟨test, htest, bs, hbs, htop, hexit, rfl⟩ := Statement.code_whileDo_eq_ok_iff.1 h
    have hd' : ((a' + test.length + 1 : Nat) : Int) = (a + test.length + 1 : Nat) + d := by omega
    have hbody := Statement.relocate_code hbs hd'
    have htest' : relocate d [] test = test := (Condition.straight_code htest).relocate
    rw [Statement.code, List.length_append, List.length_cons, List.length_append,
      List.length_singleton]
    refine (Yields.of_ok htest).bind ((hbody.mono (by omega)).bind ?_)
    rw [length_relocate]
    refine (Yields.offset htop hd (by omega)).bind ?_
    refine (Yields.offset hexit (by omega) (by omega)).bind (Yields.pure ?_)
    rw [relocate_unmarked_append, htest', relocate, relocate_unmarked_append]
    rfl

/-- The statements of a list move together. -/
theorem Statement.relocate_codes {ss : List Statement} {env : Environment} {a a' : Nat} {d : Int}
    {is : List Instruction} (h : Statement.codes env a ss = .ok is) (hd : (a' : Int) = a + d) :
    Yields d (a' + is.length) (Statement.codes env a' ss) (relocate d [] is) := by
  cases ss with
  | nil =>
    obtain rfl := pure_eq_ok_iff.1 h
    exact .of_ok rfl
  | cons st ss =>
    obtain ⟨is, his, js, hjs, rfl⟩ := Statement.codes_cons_eq_ok_iff.1 h
    have hfirst := Statement.relocate_code his hd
    have hd' : ((a' + is.length : Nat) : Int) = (a + is.length : Nat) + d := by omega
    have hrest := Statement.relocate_codes hjs hd'
    rw [Statement.codes, List.length_append]
    refine (hfirst.mono (by omega)).bind ?_
    rw [length_relocate]
    exact (hrest.mono (by omega)).bind (Yields.pure relocate_unmarked_append.symm)

end

/-! ## Blocks

In the code of a block the entries of its procedures change, too, and they look like any other
literal. The marks tell them apart; they are as long as the code that they belong to. -/

/-- A constant is a literal and a store, both without addresses of the code. -/
theorem straight_constCode {d : ConstDecl} {s : Scope} {is : List Instruction}
    (h : constCode s d = .ok is) : Straight is := by
  obtain ⟨slot, -, rfl⟩ := constCode_eq_ok_iff.1 h
  exact List.forall_mem_cons.2 ⟨rfl, Straight.single rfl⟩

theorem straight_constsCode {ds : List ConstDecl} {s : Scope} {is : List Instruction}
    (h : constsCode s ds = .ok is) : Straight is := by
  induction ds generalizing s is with
  | nil =>
    obtain rfl := pure_eq_ok_iff.1 h
    exact fun _ hi => absurd hi List.not_mem_nil
  | cons d ds ih =>
    obtain ⟨is, his, js, hjs, rfl⟩ := constsCode_cons_eq_ok_iff.1 h
    exact (straight_constCode his).append (ih hjs)

mutual

/-- The marks along the code of a block: the entries of its procedures, at any depth. -/
def Block.entryMarks : Block → List Bool
  | .mk consts _ ps body =>
    List.replicate (1 + 2 * consts.length) false ++
      (Procedure.entryMarksOf ps ++ List.replicate (body.codeSize + 1) false)

/-- A procedure begins with the `LIT` of its entry. -/
def Procedure.entryMarks : Procedure → List Bool
  | .mk _ b => true :: false :: false :: b.entryMarks

/-- The marks of procedures, one after the other. -/
def Procedure.entryMarksOf : List Procedure → List Bool
  | [] => []
  | p :: ps => p.entryMarks ++ Procedure.entryMarksOf ps

end

mutual

/-- There is one mark for each instruction. -/
theorem Block.length_entryMarks (b : Block) : b.entryMarks.length = b.codeSize := by
  cases b with
  | mk consts vars ps body =>
    simp only [Block.entryMarks, Block.codeSize, List.length_append, List.length_replicate,
      Procedure.length_entryMarksOf ps]
    omega

theorem Procedure.length_entryMarks (p : Procedure) : p.entryMarks.length = p.codeSize := by
  cases p with
  | mk x b =>
    simp only [Procedure.entryMarks, Procedure.codeSize, List.length_cons, b.length_entryMarks]
    omega

theorem Procedure.length_entryMarksOf (ps : List Procedure) :
    (Procedure.entryMarksOf ps).length = Procedure.codeSizes ps := by
  cases ps with
  | nil => rfl
  | cons p ps =>
    rw [Procedure.entryMarksOf, List.length_append, Procedure.codeSizes, p.length_entryMarks,
      Procedure.length_entryMarksOf ps]

end

section

variable {env : Environment} {s : Scope} {a : Nat} {d slots : Int} {consts : List ConstDecl}
  {vars : List Ident} {ps : List Procedure} {body : Statement} {cs is bs : List Instruction}

/-- In front of the procedures of a block stand its `INT` and its constants. -/
theorem length_opening (h : constsCode s consts = .ok cs) (i : Instruction) :
    (List.replicate (1 + 2 * consts.length) false).length = (i :: cs).length := by
  rw [List.length_replicate, List.length_cons, length_constsCode h, Nat.add_comm]

/-- The marks of procedures go along their code. -/
theorem length_entryMarksOf (h : Procedure.codes env s a ps = .ok is) :
    (Procedure.entryMarksOf ps).length = is.length := by
  rw [Procedure.length_entryMarksOf, Procedure.length_codes h]

/-- A block moves with its parts; its constants and its frame stay as they are. -/
theorem relocate_block (hcs : constsCode Scope.empty consts = .ok cs)
    (his : Procedure.codes env s a ps = .ok is) :
    relocate d (Block.mk consts vars ps body).entryMarks
        (.make .int 0 slots :: (cs ++ is ++ bs ++ [.leave])) =
      .make .int 0 slots ::
        (cs ++ relocate d (Procedure.entryMarksOf ps) is ++ relocate d [] bs ++ [.leave]) := by
  have hopening : relocate d [] (.make .int 0 slots :: cs) = .make .int 0 slots :: cs := by
    rw [relocate, (straight_constsCode hcs).relocate]
    rfl
  rw [List.append_assoc, List.append_assoc, ← List.cons_append, Block.entryMarks,
    relocate_append (length_opening hcs _), relocate_append (length_entryMarksOf his),
    relocate_replicate, relocate_replicate, hopening, relocate_unmarked_append]
  simp only [List.cons_append, List.append_assoc]
  rfl

end

mutual

/-- **The code of a block, started elsewhere.** -/
theorem Block.relocate_code {b : Block} {env : Environment} {a a' : Nat} {d : Int}
    {is : List Instruction} (h : b.code env a = .ok is) (hd : (a' : Int) = a + d) :
    Yields d (a' + is.length) (b.code env a') (relocate d b.entryMarks is) := by
  cases b with
  | mk consts vars ps body =>
    obtain ⟨cs, hcs, is, his, bs, hbs, hsize, rfl⟩ := Block.code_eq_ok_iff.1 h
    dsimp only [Block.consts, Block.procedures, Block.body] at hcs his hbs
    have hslots := offset_eq_ok_iff.2 ⟨rfl, hsize⟩
    have hd₁ : ((a' + 1 + cs.length : Nat) : Int) = (a + 1 + cs.length : Nat) + d := by omega
    have hd₂ : ((a' + 1 + cs.length + is.length : Nat) : Int) =
        (a + 1 + cs.length + is.length : Nat) + d := by omega
    have hps := Procedure.relocate_codes his hd₁
    have hbody := Statement.relocate_code hbs hd₂
    rw [Block.code, relocate_block hcs his]
    simp only [List.length_cons, List.length_append]
    refine (Yields.of_ok hcs).bind ((hps.mono (by omega)).bind ?_)
    rw [length_relocate]
    exact (hbody.mono (by omega)).bind ((Yields.of_ok hslots).bind (Yields.pure rfl))

/-- Entry and jump of a procedure move as its block does; its slot stays. -/
theorem Procedure.relocate_codeFrom {p : Procedure} {env : Environment} {a a' : Nat} {d : Int}
    {is : List Instruction} (h : p.codeFrom env a = .ok is) (hd : (a' : Int) = a + d) :
    Yields d (a' + is.length) (p.codeFrom env a') (relocate d p.entryMarks is) := by
  cases p with
  | mk x b =>
    obtain ⟨hslot, hentry, bs, hbs, hskip, rfl⟩ := Procedure.codeFrom_eq_ok_iff.1 h
    have hslot' := offset_eq_ok_iff.2 ⟨rfl, hslot⟩
    have hd' : ((a' + 3 : Nat) : Int) = (a + 3 : Nat) + d := by omega
    have hblock := Block.relocate_code hbs hd'
    simp only [Procedure.codeFrom, headerOffsets, bind_assoc, pure_bind, List.length_cons]
    refine (Yields.of_ok hslot').bind ?_
    refine (Yields.offset hentry (by omega) (by omega)).bind ?_
    refine (hblock.mono (by omega)).bind ?_
    rw [length_relocate]
    exact (Yields.offset hskip (by omega) (by omega)).bind (Yields.pure rfl)

/-- Procedures move together. -/
theorem Procedure.relocate_codes {ps : List Procedure} {env : Environment} {s : Scope}
    {a a' : Nat} {d : Int} {is : List Instruction} (h : Procedure.codes env s a ps = .ok is)
    (hd : (a' : Int) = a + d) :
    Yields d (a' + is.length) (Procedure.codes env s a' ps)
      (relocate d (Procedure.entryMarksOf ps) is) := by
  cases ps with
  | nil =>
    obtain rfl := pure_eq_ok_iff.1 h
    exact .of_ok rfl
  | cons p ps =>
    obtain ⟨is, his, js, hjs, rfl⟩ := Procedure.codes_cons_eq_ok_iff.1 h
    have hmarks : p.entryMarks.length = is.length := by
      rw [p.length_entryMarks, Procedure.length_code his]
    rw [← p.codeFrom_nest] at his
    have hfirst := Procedure.relocate_codeFrom his hd
    have hd' : ((a' + is.length : Nat) : Int) = (a + is.length : Nat) + d := by omega
    have hrest := Procedure.relocate_codes hjs hd'
    rw [Procedure.codes, ← p.codeFrom_nest, Procedure.entryMarksOf, relocate_append hmarks,
      List.length_append]
    refine (hfirst.mono (by omega)).bind ?_
    rw [length_relocate]
    exact (hrest.mono (by omega)).bind (Yields.pure rfl)

end

/-! ## Entries of procedures

The other half: where the marks are on, there is a literal that holds the address three instructions
behind it. -/

/-- The marked instructions of code that starts at `a` hold the addresses three instructions behind
    themselves. -/
def Enters (a : Nat) : List Bool → List Instruction → Prop
  | mark :: marks, i :: is =>
    (mark = true → i = .make .lit 0 ((a + 3 : Nat) : Int)) ∧ Enters (a + 1) marks is
  | _, _ => True

/-- Pieces of code in turn, each with its marks. -/
theorem Enters.append {marks marks' : List Bool} {is js : List Instruction} {a : Nat}
    (h : Enters a marks is) (h' : Enters (a + is.length) marks' js)
    (hlength : marks.length = is.length) : Enters a (marks ++ marks') (is ++ js) := by
  induction is generalizing marks a with
  | nil =>
    obtain rfl := List.eq_nil_of_length_eq_zero hlength
    exact h'
  | cons i is ih =>
    cases marks with
    | nil => cases hlength
    | cons mark marks =>
      refine ⟨h.1, ih h.2 ?_ (Nat.succ.inj hlength)⟩
      rwa [Nat.add_assoc, Nat.add_comm 1]

/-- Nothing is claimed where no mark is on. -/
theorem enters_replicate (a n : Nat) (is : List Instruction) :
    Enters a (List.replicate n false) is := by
  induction n generalizing a is with
  | zero => exact trivial
  | succ n ih =>
    cases is with
    | nil => exact trivial
    | cons i is => exact ⟨nofun, ih (a + 1) is⟩

/-- What stands at a marked place. -/
theorem Enters.get {marks : List Bool} {is : List Instruction} {a k : Nat}
    (h : Enters a marks is) (hlength : marks.length ≤ is.length) (hk : marks[k]? = some true) :
    is[k]? = some (.make .lit 0 ((a + k + 3 : Nat) : Int)) := by
  induction marks generalizing a is k with
  | nil => simp at hk
  | cons mark marks ih =>
    cases is with
    | nil => simp at hlength
    | cons i is =>
      cases k with
      | zero =>
        have hmark : mark = true := by simpa using hk
        simpa using h.1 hmark
      | succ k =>
        have hrest := ih h.2 (by simpa using hlength) (by simpa using hk)
        rw [List.getElem?_cons_succ, hrest, Nat.add_assoc a 1 k, Nat.add_comm 1 k]

/-- The code of a procedure is as long as its marks. -/
theorem Procedure.length_codeFrom {p : Procedure} {env : Environment} {a : Nat}
    {is : List Instruction} (h : p.codeFrom env a = .ok is) :
    is.length = p.entryMarks.length := by
  cases p with
  | mk x b =>
    obtain ⟨-, -, bs, hbs, -, rfl⟩ := Procedure.codeFrom_eq_ok_iff.1 h
    have hlength : bs.length = b.codeSize := Block.length_code hbs
    simp only [List.length_cons, Procedure.entryMarks, b.length_entryMarks, hlength]

mutual

/-- **The marks in the code of a block** are at the entries of its procedures. -/
theorem Block.enters_code {b : Block} {env : Environment} {a : Nat} {is : List Instruction}
    (h : b.code env a = .ok is) : Enters a b.entryMarks is := by
  cases b with
  | mk consts vars ps body =>
    obtain ⟨cs, hcs, is, his, bs, hbs, -, rfl⟩ := Block.code_eq_ok_iff.1 h
    have hcodes : Procedure.codes env (Block.mk consts vars ps body).dataScope
        (a + 1 + cs.length) ps = .ok is := his
    have hps : Enters (a + (cs.length + 1)) (Procedure.entryMarksOf ps) is := by
      rw [Nat.add_comm cs.length, ← Nat.add_assoc]
      exact Procedure.enters_codes hcodes
    have hmiddle := hps.append (enters_replicate _ (body.codeSize + 1) (bs ++ [.leave]))
      (length_entryMarksOf hcodes)
    rw [List.append_assoc, List.append_assoc, ← List.cons_append, Block.entryMarks]
    exact (enters_replicate a _ _).append hmiddle (length_opening hcs _)

/-- The first instruction of a procedure is its entry, and the block starts behind the jump. -/
theorem Procedure.enters_codeFrom {p : Procedure} {env : Environment} {a : Nat}
    {is : List Instruction} (h : p.codeFrom env a = .ok is) : Enters a p.entryMarks is := by
  cases p with
  | mk x b =>
    obtain ⟨-, -, bs, hbs, -, rfl⟩ := Procedure.codeFrom_eq_ok_iff.1 h
    exact ⟨fun _ => rfl, nofun, nofun, Block.enters_code hbs⟩

theorem Procedure.enters_codes {ps : List Procedure} {env : Environment} {s : Scope} {a : Nat}
    {is : List Instruction} (h : Procedure.codes env s a ps = .ok is) :
    Enters a (Procedure.entryMarksOf ps) is := by
  cases ps with
  | nil => exact trivial
  | cons p ps =>
    obtain ⟨is, his, js, hjs, rfl⟩ := Procedure.codes_cons_eq_ok_iff.1 h
    have hlength : p.entryMarks.length = is.length := by
      rw [p.length_entryMarks, Procedure.length_code his]
    rw [← p.codeFrom_nest] at his
    exact (Procedure.enters_codeFrom his).append (Procedure.enters_codes hjs) hlength

end

end PL0
