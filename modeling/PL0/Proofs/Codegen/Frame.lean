import PL0.Proofs.Codegen.Relocation
import PL0.Proofs.Codegen.Visits

/-!
# `Codegen.Frame` — what a part of the walk leaves alone

The walk may start in any state, with any code in the buffer and any scopes open. Whatever node it
walks over, it appends to the buffer, and patches nothing but what it has appended; it closes the
scopes that it opens, so that a declaration is all that may remain, one name in the innermost of the
scopes (`Environment.Gains`). And it does not read the buffer: the code that it appends depends on
how much there is in front of it, through the addresses in it alone (`relocate`).

`Node.walks` ties the walk over a node to the code of the node, for any state; the rest is said by
`Codegen.Relocation` about the code. Main statement: `Node.framed`.
-/

namespace PL0

/-! ## Declarations -/

/-- The second environment is the first, with the name `x` added to the innermost scope perhaps. -/
def Environment.Gains (env : Environment) (x : String) (env' : Environment) : Prop :=
  env' = env ∨ ∃ symbol : Symbol, x ∉ env.current.names ∧
    env' = env.withCurrent ⟨env.current.symbols ++ [(x, symbol)]⟩

theorem Environment.gains_declare (env : Environment) (x : String) (kind : SymbolKind)
    (value : Option Int) :
    env.Gains x (env.withCurrent (env.current.declare x kind value).2) := by
  unfold Scope.declare
  cases h : env.current.get? x with
  | some old => exact .inl env.withCurrent_current
  | none => exact .inr ⟨_, Scope.get?_eq_none_iff.1 h, rfl⟩

namespace Codegen

/-- A phrase moves with its jumps. -/
theorem Phrase.relocate_code (a : Phrase) {env : Environment} {x x' : Nat} {d : Int}
    {is : List Instruction} (h : a.code env x = .ok is) (hd : (x' : Int) = x + d) :
    Yields d (x' + is.length) (a.code env x') (relocate d [] is) := by
  cases a with
  | statement st => exact Statement.relocate_code h hd
  | statements ss => exact Statement.relocate_codes h hd
  | targets b xs => exact .of_straight (Straight.collect (fun _ _ => straight_readCode) h) h
  | values b es => exact .of_straight (Straight.collect (fun _ _ => straight_writeCode) h) h
  | input b | output b =>
    obtain ⟨rfl, -⟩ := accessCode_eq_ok_iff.1 h
    exact .of_straight (Straight.single rfl) h
  | condition c => exact .of_straight (Condition.straight_code h) h
  | expr e => exact .of_straight (Expr.straight_code h) h
  | terms ts => exact .of_straight (Terms.straight_code h) h
  | term t => exact .of_straight (Term.straight_code h) h
  | factor f => exact .of_straight (Factor.straight_code h) h
  | use y =>
    have hcode := h
    simp only [Phrase.code, map_eq_pure_bind, bind_eq_ok_iff, pure_eq_ok_iff] at h
    obtain ⟨b, -, rfl⟩ := h
    exact .of_ok hcode

/-! ## Nodes -/

/-- A node of the tree, or one of its declarations. -/
inductive Node where
  | block (b : Block)
  | procedure (p : Procedure)
  | constant (d : ConstDecl)
  | declaration (x : Ident) (kind : SymbolKind) (value : Option Int)
  /-- Something in a statement, or a statement. -/
  | phrase (a : Phrase)

namespace Node

/-- The walk over the node. -/
def walk : Node → Gen Unit
  | block b => Codegen.block b
  | procedure p => Codegen.procedure p
  | constant d => constDecl d
  | declaration x kind value => discard (declare x kind value)
  | phrase a => a.walk

/-- The name that the node declares around itself. -/
def declared? : Node → Option String
  | procedure p => some p.name.name
  | constant d => some d.name.name
  | declaration x _ _ => some x.name
  | block _ => none
  | phrase _ => none

/-- The entries of procedures along the code of the node. -/
def entryMarks : Node → List Bool
  | block b => b.entryMarks
  | procedure p => p.entryMarks
  | _ => []

/-- The code of the node where it starts at `x`. -/
def code (env : Environment) (x : Nat) : Node → Except CodegenError (List Instruction)
  | block b => b.code env x
  | procedure p => p.codeFrom env x
  | constant d => constCode env.current d
  | declaration _ _ _ => return []
  | phrase a => a.code env x

/-- The scopes behind the node. -/
def scopes (env : Environment) : Node → Environment
  | block _ => env
  | procedure p => env.withCurrent (env.current.declareProcedure p)
  | constant d => env.withCurrent (env.current.declareConst d)
  | declaration x kind value => env.withCurrent (env.current.declare x.name kind value).2
  | phrase _ => env

/-- The walk over a node emits its code, in any state. -/
theorem walks (n : Node) (s : State) : Walks s.code (n.walk s)
    ((fun is => ((), [] ++ is, n.scopes s.env)) <$> n.code s.env s.next) := by
  have hc := Phrase.append_nil s
  cases n with
  | block b => exact walks_block b hc rfl rfl
  | procedure p => exact walks_procedure p hc rfl rfl
  | constant d => exact walks_constDecl d hc rfl
  | declaration x kind value =>
    exact walks_discard (v := .ok ([] : List Instruction)) (G := fun _ => (_, [], _))
      (walks_declare hc rfl x kind value)
  | phrase a => exact a.walks s

variable {n : Node} {s s' : State} {is : List Instruction}

/-- A declaration leaves its name, any other node leaves nothing. -/
theorem gains_scopes (n : Node) (env : Environment) : match n.declared? with
    | none => n.scopes env = env
    | some x => env.Gains x (n.scopes env) := by
  cases n with
  | block b => rfl
  | procedure p => exact env.gains_declare _ _ _
  | constant d => exact env.gains_declare _ _ _
  | declaration x kind value => exact env.gains_declare _ _ _
  | phrase a => rfl

/-- The marks are at the entries of procedures. -/
theorem getElem?_of_marked {env : Environment} {x k : Nat} (h : n.code env x = .ok is)
    (hk : n.entryMarks[k]? = some true) :
    is[k]? = some (.make .lit 0 ((x + k + 3 : Nat) : Int)) := by
  cases n with
  | block b =>
    have hlength : b.entryMarks.length = is.length := by
      rw [b.length_entryMarks, Block.length_code h]
    exact (Block.enters_code h).get hlength.le hk
  | procedure p =>
    exact (Procedure.enters_codeFrom h).get (Procedure.length_codeFrom h).symm.le hk
  | constant d => cases hk
  | declaration x kind value => cases hk
  | phrase a => cases hk

theorem relocate_code {env : Environment} {x x' : Nat} {d : Int} (h : n.code env x = .ok is)
    (hd : (x' : Int) = x + d) :
    Yields d (x' + is.length) (n.code env x') (relocate d n.entryMarks is) := by
  cases n with
  | block b => exact Block.relocate_code h hd
  | procedure p => exact Procedure.relocate_codeFrom h hd
  | constant c => exact .of_straight (straight_constCode h) h
  | declaration y kind value =>
    obtain rfl := pure_eq_ok_iff.1 h
    exact .of_ok rfl
  | phrase a => exact a.relocate_code h hd

/-- What a walk over the node, from one state to another, has done. -/
structure Framed (n : Node) (s s' : State) (is : List Instruction) : Prop where
  /-- Instructions have been appended, -/
  appended : s'.code = s.code.append is
  /-- and the others are what they were. -/
  kept : ∀ address < s.next, s'.code.get? address = s.code.get? address
  /-- A declaration has left its name, any other node nothing. -/
  scopes : match n.declared? with
    | none => s'.env = s.env
    | some x => s.env.Gains x s'.env
  /-- Each marked instruction holds the address of the block of a procedure, behind a `STO` and a
      `JMP`. -/
  entries : ∀ k : Nat, n.entryMarks[k]? = some true →
    is[k]? = some (.make .lit 0 ((s.next + k + 3 : Nat) : Int))
  /-- From a state with other code and the same scopes the walk does the same, with the instructions
      relocated; or some address is too great for an offset. -/
  relocates : ∀ t : State, t.env = s.env →
    (∃ t', n.walk t = .ok () t' ∧ t'.env = s'.env ∧
      t'.code = t.code.append (relocate ((t.next : Int) - s.next) n.entryMarks is)) ∨
    (∃ t', n.walk t = .error (.buffer .tooLarge) t' ∧ s.next < t.next ∧
      Word.greatest < ((t.next + is.length : Nat) : Int))

/-- **A part of the walk appends, closes the scopes that it opens, and does not read the code in
    front of its own.** -/
theorem framed (n : Node) (s s' : State) (h : n.walk s = .ok () s') : ∃ is, Framed n s s' is := by
  obtain ⟨is, his, -, hcode, henv⟩ := (n.walks s).of_ok h
  refine ⟨is, hcode, ?_, ?_, ?_, ?_⟩
  · intro address haddress
    show s'.code.instructions[address]? = s.code.instructions[address]?
    rw [hcode]
    exact Array.getElem?_append_left haddress
  · have henv' : s'.env = n.scopes s.env := henv
    rw [henv']
    exact n.gains_scopes s.env
  · intro k hk
    exact getElem?_of_marked his hk
  · intro t ht
    have hd : (t.next : Int) = s.next + ((t.next : Int) - s.next) := by omega
    have hwalks := n.walks t
    rw [ht] at hwalks
    rcases relocate_code his hd with hok | ⟨herror, hpos, hgreat⟩
    · obtain ⟨t', ht', hcode', henv'⟩ := hwalks.to_ok hok
      exact .inl ⟨t', ht', henv'.trans henv.symm, hcode'⟩
    · obtain ⟨t', ht'⟩ := hwalks.to_error herror
      exact .inr ⟨t', ht', by omega, hgreat⟩

/-- A procedure that rounds `x` down to an even number. -/
def roundDown : Node := .procedure (.mk ⟨"p", 10⟩ (.mk [] [] []
  (.whileDo (.odd (.mk none (.single (.single (.ident ⟨"x", 23⟩)))))
    (.assign ⟨"x", 28⟩
      (.mk none (.join (.single (.single (.ident ⟨"x", 33⟩))) .sub
        (.single (.number ⟨1, 37⟩))))))))

/-- Behind `front`, in a scope that holds `x`. -/
def behind (front : Array Instruction) : State :=
  ⟨⟨front⟩, Environment.initial.nest ⟨[("x", ⟨.var, none, 0⟩)]⟩, #[]⟩

/-- The procedure declares its name, and moves with its entry and its two jumps. -/
theorem roundDown_framed : ∃ s', roundDown.walk (behind #[.make .int 0 2]) = .ok () s' ∧
    ∃ is, Framed roundDown (behind #[.make .int 0 2]) s' is :=
  ⟨_, rfl, framed _ _ _ rfl⟩

example : relocate 2 roundDown.entryMarks <$> roundDown.code (behind #[]).env 1 = .ok
    [.make .lit 0 6, .make .sto 0 1, .make .jmp 0 16, .make .int 0 0, .make .lod 1 0, .apply .odd,
      .make .jpc 0 15, .make .lod 1 0, .make .lit 0 1, .apply (.arith .sub), .make .sto 1 0,
      .make .jmp 0 7, .leave] := by
  decide

end Node

end Codegen

end PL0
