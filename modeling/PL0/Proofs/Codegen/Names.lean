import PL0.Proofs.Codegen.Layout

/-!
# `Codegen.Names` — where the names of a program lead

A name used in a subprogram leads to the innermost subprogram around it that declares it. In a
program that uses the names of the channels nowhere (`Program.PortFree`), no other name leads to a
channel, and both channels lie right below all scopes.

Main statements: `Environment.resolve_eq_some_iff` reads a resolution backwards;
`Program.Nested.resolve_lt` bounds level and slot of a name by the subprogram that it leads to, and
`Nested.resolve_channel` places the channels. `Statement.plain_code` says which instructions a
statement has: where they take level and offset from a name, it is one of the statement.
-/

namespace PL0

/-! ## The identifiers of a tree

All identifiers are listed, in the order of the code that is generated: the value of an assignment
comes before its target. What is asked of the names of a program is asked of these lists. -/

mutual

/-- The identifiers in an expression. -/
def Expr.idents : Expr → List Ident
  | .mk _ ts => ts.idents

def Terms.idents : Terms → List Ident
  | .single t => t.idents
  | .join left _ right => left.idents ++ right.idents

def Term.idents : Term → List Ident
  | .single f => f.idents
  | .join left _ right => left.idents ++ right.idents

def Factor.idents : Factor → List Ident
  | .ident x => [x]
  | .number _ => []
  | .group e => e.idents

end

/-- The identifiers in a condition. -/
def Condition.idents : Condition → List Ident
  | .odd e => e.idents
  | .compare left _ right => left.idents ++ right.idents

mutual

/-- The identifiers in a statement. -/
def Statement.idents : Statement → List Ident
  | .empty => []
  | .block body => Statement.identsOf body
  | .read targets => targets
  | .write values => values.flatMap Expr.idents
  | .call x => [x]
  | .whileDo c body => c.idents ++ body.idents
  | .assign x e => e.idents ++ [x]
  | .ifThen c body => c.idents ++ body.idents

/-- The identifiers in statements, one after the other. -/
def Statement.identsOf : List Statement → List Ident
  | [] => []
  | s :: ss => s.idents ++ Statement.identsOf ss

end

mutual

/-- The identifiers in a block, declared or used. -/
def Block.idents : Block → List Ident
  | .mk consts vars ps body =>
    consts.map ConstDecl.name ++ vars ++ Procedure.identsOf ps ++ body.idents

def Procedure.idents : Procedure → List Ident
  | .mk x b => x :: b.idents

def Procedure.identsOf : List Procedure → List Ident
  | [] => []
  | p :: ps => p.idents ++ Procedure.identsOf ps

end

/-- The identifier is not spelled like a channel. -/
def Ident.Ordinary (x : Ident) : Prop := x.name ≠ readChannel ∧ x.name ≠ writeChannel

instance : DecidablePred Ident.Ordinary := fun x =>
  inferInstanceAs (Decidable (x.name ≠ readChannel ∧ x.name ≠ writeChannel))

/-- No identifier of the program is spelled like a channel. -/
def Program.PortFree (p : Program) : Prop := ∀ x ∈ p.block.idents, x.Ordinary

instance (p : Program) : Decidable p.PortFree :=
  inferInstanceAs (Decidable (∀ x ∈ p.block.idents, x.Ordinary))

/-- The program
    `var x; procedure p; while x > 0 do x := x - 1; begin read(x); call p; write(x) end .` -/
def countdown : Program :=
  let x : Ident := ⟨"x", 4⟩
  let p : Ident := ⟨"p", 17⟩
  let loop : Statement :=
    .whileDo (.compare (.mk none (.single (.single (.ident x)))) .gt
        (.mk none (.single (.single (.number ⟨0, 30⟩)))))
      (.assign x (.mk none (.join (.single (.single (.ident x))) .sub
        (.single (.number ⟨1, 44⟩)))))
  ⟨.mk [] [x] [.mk p (.mk [] [] [] loop)]
    (.block [.read [x], .call p, .write [.mk none (.single (.single (.ident x)))]])⟩

/-- Any program with short names is like this. -/
theorem countdown_portFree : countdown.PortFree := by decide

/-- The code of `countdown`. -/
def countdownCode : Array Instruction :=
  #[.make .int 0 2, .make .lit 0 4, .make .sto 0 1, .make .jmp 0 15,
    .make .int 0 0, .make .lod 1 0, .make .lit 0 0, .apply (.relation .gt), .make .jpc 0 14,
    .make .lod 1 0, .make .lit 0 1, .apply (.arith .sub), .make .sto 1 0, .make .jmp 0 5, .leave,
    .make .lod 1 0, .make .sto 0 0, .make .cal 0 1, .make .lod 0 0, .make .sto 1 1, .leave]

/-- The block of `p` starts behind the jump over it. -/
theorem compile_countdown : countdown.compile.1 = .ok countdownCode := by cbv

/-- What occurs in a procedure occurs in the list it is in. -/
theorem Procedure.mem_identsOf {ps : List Procedure} {p : Procedure} (hp : p ∈ ps) {x : Ident}
    (hx : x ∈ p.idents) : x ∈ Procedure.identsOf ps := by
  induction ps with
  | nil => cases hp
  | cons q ps ih =>
    rcases List.mem_cons.1 hp with rfl | hp
    · exact List.mem_append_left _ hx
    · exact List.mem_append_right _ (ih hp)

/-- A declared name is an identifier of the block. -/
theorem Block.mem_idents_of_names {b : Block} {name : String} (h : name ∈ b.names) :
    ∃ x ∈ b.idents, x.name = name := by
  obtain ⟨consts, vars, ps, body⟩ := b
  unfold Block.names Block.idents at *
  simp only [Block.consts, Block.vars, Block.procedures, List.mem_append, List.mem_map] at *
  rcases h with (⟨d, hd, rfl⟩ | ⟨x, hx, rfl⟩) | ⟨q, hq, rfl⟩
  · exact ⟨d.name, Or.inl (Or.inl (Or.inl ⟨d, hd, rfl⟩)), rfl⟩
  · exact ⟨x, Or.inl (Or.inl (Or.inr hx)), rfl⟩
  · have hx : q.name ∈ q.idents := by
      obtain ⟨x, b⟩ := q
      exact List.mem_cons_self ..
    exact ⟨q.name, Or.inl (Or.inr (Procedure.mem_identsOf hq hx)), rfl⟩

/-- Every name that the statement of a block uses is an identifier of the block. -/
theorem Block.mem_idents_of_body {b : Block} {x : Ident} (h : x ∈ b.body.idents) :
    x ∈ b.idents := by
  obtain ⟨consts, vars, ps, body⟩ := b
  exact List.mem_append_right _ h

/-- Every name in the block of a procedure is an identifier of the block around it. -/
theorem Block.mem_idents_of_procedure {b : Block} {q : Procedure} (hq : q ∈ b.procedures)
    {x : Ident} (hx : x ∈ q.block.idents) : x ∈ b.idents := by
  obtain ⟨consts, vars, ps, body⟩ := b
  obtain ⟨y, c⟩ := q
  refine List.mem_append_left _ (List.mem_append_right _ ?_)
  exact Procedure.mem_identsOf hq (List.mem_cons_of_mem _ hx)

namespace Subprogram

variable {s t : Subprogram}

/-- The subprograms of a block are those of its procedures. -/
theorem exists_procedure (ht : t ∈ s.inner) :
    ∃ q ∈ s.block.procedures, t.name = some q.name ∧ t.block = q.block := by
  have h : (t.name, t.block) ∈ s.inner.map fun t => (t.name, t.block) := List.mem_map_of_mem ht
  unfold inner at h
  rw [declared_blocks] at h
  obtain ⟨q, hq, heq⟩ := List.mem_map.1 h
  exact ⟨q, hq, (Prod.ext_iff.1 heq).1.symm, (Prod.ext_iff.1 heq).2.symm⟩

end Subprogram

/-- No subprogram of the program, at any depth, has an identifier spelled like a channel. -/
theorem Program.PortFree.nested {p : Program} (h : p.PortFree) {path : List Subprogram}
    (hn : p.Nested path) : ∀ s ∈ path, ∀ x ∈ s.block.idents, x.Ordinary := by
  induction hn with
  | main =>
    intro s hs
    rw [List.mem_singleton.1 hs]
    exact h
  | inner _ ht ih =>
    intro u hu
    rcases List.mem_cons.1 hu with rfl | hu
    · obtain ⟨q, hq, -, hb⟩ := Subprogram.exists_procedure ht
      rw [hb]
      exact fun x hx => ih _ (List.mem_cons_self ..) x (Block.mem_idents_of_procedure hq hx)
    · exact ih u hu

/-! ## Resolution

`resolve` searches the scopes from the innermost one on and counts. Read backwards, an address says
in which scope the name was found and that it was in none before; which subprogram this scope
belongs to is known from `Codegen.Layout`. -/

/-- A name leads to the first scope that holds it. -/
theorem resolveIn_eq_some_iff {name : String} {n : Nat} {ss : List Scope} {a : Address} :
    Environment.resolveIn name n ss = some a ↔
      ∃ k s, a.level = n + k ∧ ss[k]? = some s ∧ s.get? name = some a.symbol ∧
        ∀ j < k, ∀ t, ss[j]? = some t → t.get? name = none := by
  induction ss generalizing n with
  | nil => simp [Environment.resolveIn]
  | cons s ss ih =>
    unfold Environment.resolveIn
    cases hs : s.get? name with
    | some sym =>
      constructor
      · rintro ⟨⟩
        exact ⟨0, s, rfl, rfl, hs, fun j hj => absurd hj (Nat.not_lt_zero j)⟩
      · rintro ⟨k, t, hl, ht, hg, hnone⟩
        cases k with
        | zero =>
          cases ht
          obtain ⟨level, symbol⟩ := a
          rw [hs] at hg
          cases hg
          exact congrArg (fun l => some (Address.mk l _)) hl.symm
        | succ k =>
          rw [hnone 0 (Nat.succ_pos k) s rfl] at hs
          cases hs
    | none =>
      -- The innermost scope does not hold the name: levels and scopes shift by one.
      show Environment.resolveIn name (n + 1) ss = some a ↔ _
      rw [ih]
      constructor
      · rintro ⟨k, t, hl, ht, hg, hnone⟩
        refine ⟨k + 1, t, by omega, ht, hg, ?_⟩
        intro j hj u hu
        cases j with
        | zero =>
          cases hu
          exact hs
        | succ j => exact hnone j (by omega) u hu
      · rintro ⟨k, t, hl, ht, hg, hnone⟩
        cases k with
        | zero =>
          cases ht
          rw [hs] at hg
          cases hg
        | succ k =>
          refine ⟨k, t, by omega, ht, hg, ?_⟩
          exact fun j hj u hu => hnone (j + 1) (by omega) u hu

/-- The level of an address counts the scopes crossed. -/
theorem Environment.resolve_eq_some_iff {env : Environment} {name : String} {a : Address} :
    env.resolve name = some a ↔
      ∃ s, env.frames[a.level]? = some s ∧ s.get? name = some a.symbol ∧
        ∀ k < a.level, ∀ t, env.frames[k]? = some t → t.get? name = none := by
  unfold resolve
  simp only [resolveIn_eq_some_iff, Nat.zero_add]
  constructor
  · rintro ⟨k, s, rfl, hs, hg, hnone⟩
    exact ⟨s, hs, hg, hnone⟩
  · rintro ⟨s, hs, hg, hnone⟩
    exact ⟨a.level, s, rfl, hs, hg, hnone⟩

/-- The last scope is searched at the latest. -/
theorem exists_resolveIn {name : String} {last : Scope} {sym : Symbol}
    (h : last.get? name = some sym) (n : Nat) (ss : List Scope) :
    ∃ a, Environment.resolveIn name n (ss ++ [last]) = some a := by
  induction ss generalizing n with
  | nil => exact ⟨⟨n, sym⟩, by simp only [List.nil_append, Environment.resolveIn, h]⟩
  | cons s ss ih =>
    rw [List.cons_append, Environment.resolveIn]
    cases s.get? name with
    | some sym' => exact ⟨_, rfl⟩
    | none => exact ih (n + 1)

/-- The channels are the two names that the outermost scope begins with. -/
theorem channels_readChannel : Scope.channels.get? readChannel = some ⟨.var, none, 0⟩ := rfl

theorem channels_writeChannel : Scope.channels.get? writeChannel = some ⟨.var, none, 1⟩ := rfl

/-- The outermost scope holds the channels and nothing else. -/
theorem channels_get?_eq_some_iff {name : String} {sym : Symbol} :
    Scope.channels.get? name = some sym ↔
      name = readChannel ∧ sym = ⟨.var, none, 0⟩ ∨ name = writeChannel ∧ sym = ⟨.var, none, 1⟩ := by
  have hne : writeChannel ≠ readChannel := by decide
  unfold Scope.get? Scope.channels
  by_cases hr : name = readChannel
  · subst hr
    simp [hne.symm, eq_comm]
  · by_cases hw : name = writeChannel
    · subst hw
      simp [hne, List.lookup, beq_false_of_ne hne, eq_comm]
    · simp [List.lookup, beq_false_of_ne hr, beq_false_of_ne hw, hr, hw]

/-- An ordinary name is not found there. -/
theorem Ident.Ordinary.channels_get? {x : Ident} (hx : x.Ordinary) :
    Scope.channels.get? x.name = none := by
  by_contra hne
  obtain ⟨sym, hsym⟩ := Option.ne_none_iff_exists'.1 hne
  rcases channels_get?_eq_some_iff.1 hsym with ⟨hr, -⟩ | ⟨hw, -⟩
  · exact hx.1 hr
  · exact hx.2 hw

namespace Program

variable {p : Program} {s : Subprogram} {path : List Subprogram} {name : String} {a : Address}

/-- The scopes of a subprogram, one for each subprogram around it, and the channels. -/
theorem Nested.frames (hn : p.Nested (s :: path)) :
    s.scopes.frames = s.scopes.scopes ++ [Scope.channels] ∧
      s.scopes.scopes.length = (s :: path).length := by
  obtain ⟨hbase, hscopes⟩ := hn.scopes s rfl
  exact ⟨by unfold Environment.frames; rw [hbase], hscopes.length_eq⟩

/-- The scope at a level belongs to the subprogram at that level. -/
theorem Nested.scope_at (hn : p.Nested (s :: path)) {k : Nat} {sc : Scope}
    (hsc : s.scopes.scopes[k]? = some sc) :
    ∃ t, (s :: path)[k]? = some t ∧ t.block.scope.Extends sc ∧ sc.Sound := by
  obtain ⟨-, hscopes⟩ := hn.scopes s rfl
  have hk : k < (s :: path).length := by
    rw [← hscopes.length_eq]
    exact (List.getElem?_eq_some_iff.1 hsc).1
  obtain ⟨hk', rfl⟩ := List.getElem?_eq_some_iff.1 hsc
  exact ⟨_, List.getElem?_eq_getElem hk, hscopes.get hk' hk⟩

/-- **Where a name leads**: to a slot of the subprogram at its level, or to a channel right below
    all of them. -/
theorem Nested.resolve_cases (hn : p.Nested (s :: path)) (h : s.scopes.resolve name = some a) :
    (∃ t, (s :: path)[a.level]? = some t ∧ t.block.scope.get? name = some a.symbol ∧
        a.symbol.slot < t.block.scope.size ∧ name ∈ t.block.names) ∨
      a.level = (s :: path).length ∧ Scope.channels.get? name = some a.symbol := by
  obtain ⟨hframes, hlen⟩ := hn.frames
  obtain ⟨sc, hsc, hg, -⟩ := Environment.resolve_eq_some_iff.1 h
  rw [hframes] at hsc
  -- One scope for each subprogram around the use, and the base scope behind them.
  rcases Nat.lt_or_ge a.level s.scopes.scopes.length with hlt | hge
  · rw [List.getElem?_append_left hlt] at hsc
    obtain ⟨t, ht, hext, hsound⟩ := hn.scope_at hsc
    have hg' := hext.get? hg
    refine Or.inl ⟨t, ht, hg', t.block.sound_scope.slot_lt hg', ?_⟩
    exact Block.mem_names_scope.1 (Scope.mem_names_of_get? hg')
  · rw [List.getElem?_append_right hge] at hsc
    have hzero : a.level - s.scopes.scopes.length = 0 := by
      have := (List.getElem?_eq_some_iff.1 hsc).1
      rw [List.length_singleton] at this
      omega
    rw [hzero] at hsc
    cases hsc
    exact Or.inr ⟨by omega, hg⟩

/-- **An ordinary name leads to a slot** of a subprogram around its use. -/
theorem Nested.resolve_lt (hn : p.Nested (s :: path)) {x : Ident} (hx : x.Ordinary)
    (h : s.scopes.resolve x.name = some a) :
    ∃ t, (s :: path)[a.level]? = some t ∧ t.block.scope.get? x.name = some a.symbol ∧
      a.symbol.slot < t.block.scope.size := by
  rcases hn.resolve_cases h with ⟨t, ht, hg, hslot, -⟩ | ⟨-, hg⟩
  · exact ⟨t, ht, hg, hslot⟩
  · rw [hx.channels_get?] at hg
    cases hg

/-- Both channels lead somewhere. -/
theorem Nested.exists_channel (hn : p.Nested (s :: path)) {sym : Symbol}
    (hname : Scope.channels.get? name = some sym) : ∃ a, s.scopes.resolve name = some a := by
  unfold Environment.resolve
  rw [hn.frames.1]
  exact exists_resolveIn hname 0 s.scopes.scopes

/-- In a program without port names no subprogram declares a channel. -/
theorem PortFree.not_mem_names (h : p.PortFree) (hn : p.Nested path) {t : Subprogram}
    (ht : t ∈ path) : readChannel ∉ t.block.names ∧ writeChannel ∉ t.block.names := by
  constructor
  · intro hr
    obtain ⟨x, hx, hname⟩ := Block.mem_idents_of_names hr
    exact (h.nested hn t ht x hx).1 hname
  · intro hw
    obtain ⟨x, hx, hname⟩ := Block.mem_idents_of_names hw
    exact (h.nested hn t ht x hx).2 hname

/-- **The channels lie right below all scopes.** -/
theorem Nested.resolve_channel (hn : p.Nested (s :: path)) (hp : p.PortFree) {sym : Symbol}
    (hname : Scope.channels.get? name = some sym) (h : s.scopes.resolve name = some a) :
    a.level = (s :: path).length ∧ a.symbol.slot = sym.slot := by
  rcases hn.resolve_cases h with ⟨t, ht, -, -, hmem⟩ | ⟨hl, hg⟩
  · obtain ⟨hread, hwrite⟩ := hp.not_mem_names hn (List.mem_of_getElem? ht)
    rcases channels_get?_eq_some_iff.1 hname with ⟨rfl, -⟩ | ⟨rfl, -⟩
    · exact absurd hmem hread
    · exact absurd hmem hwrite
  · cases hg.symm.trans hname
    exact ⟨hl, rfl⟩

/-- Input is at slot 0 of the level below all scopes, output at slot 1. -/
theorem Nested.resolve_readChannel (hn : p.Nested (s :: path)) (hp : p.PortFree)
    (h : s.scopes.resolve readChannel = some a) :
    a.level = (s :: path).length ∧ a.symbol.slot = 0 :=
  hn.resolve_channel hp channels_readChannel h

theorem Nested.resolve_writeChannel (hn : p.Nested (s :: path)) (hp : p.PortFree)
    (h : s.scopes.resolve writeChannel = some a) :
    a.level = (s :: path).length ∧ a.symbol.slot = 1 :=
  hn.resolve_channel hp channels_writeChannel h

end Program

/-! ## The instructions of a statement

`Plain` lists what can stand in the code of a statement. Properties of all instructions of a
statement follow from it by cases, without another induction on the tree. Expressions allow of less,
and `ExprProperty` says of what. -/

open Codegen

/-- The instructions of statements in the scopes `env` whose identifiers are among `xs`. -/
inductive Plain (env : Environment) (xs : List Ident) : Instruction → Prop where
  | literal (n : Int) : Plain env xs (.make .lit 0 n)
  | operator (op : Operator) : Plain env xs (.apply op)
  | access {op : OpCode} {x : Ident} {a : Address} :
      op = .lod ∨ op = .sto ∨ op = .cal → x ∈ xs → env.resolve x.name = some a →
      Plain env xs (.make op a.level a.symbol.slot)
  | input {a : Address} : env.resolve readChannel = some a →
      Plain env xs (.make .lod a.level a.symbol.slot)
  | output {a : Address} : env.resolve writeChannel = some a →
      Plain env xs (.make .sto a.level a.symbol.slot)
  | jump {op : OpCode} (target : Nat) : op = .jmp ∨ op = .jpc →
      Plain env xs (.make op 0 (target : Int))

/-- More identifiers allow of more instructions. -/
theorem Plain.mono {env : Environment} {xs ys : List Ident} {i : Instruction}
    (h : Plain env xs i) (hsub : ∀ x ∈ xs, x ∈ ys) : Plain env ys i := by
  cases h with
  | literal n => exact .literal n
  | operator op => exact .operator op
  | access hop hx ha => exact .access hop (hsub _ hx) ha
  | input ha => exact .input ha
  | output ha => exact .output ha
  | jump target hop => exact .jump target hop

/-- Statements open no blocks. -/
theorem Plain.op_ne_int {env : Environment} {xs : List Ident} {i : Instruction}
    (h : Plain env xs i) : i.op ≠ .int := by
  cases h with
  | literal n => rintro ⟨⟩
  | operator op => rintro ⟨⟩
  | access hop _ _ => rcases hop with rfl | rfl | rfl <;> rintro ⟨⟩
  | input _ => rintro ⟨⟩
  | output _ => rintro ⟨⟩
  | jump target hop => rcases hop with rfl | rfl <;> rintro ⟨⟩

/-- Jumps carry their targets. -/
theorem Plain.eq_make_of_jump {env : Environment} {xs : List Ident} {i : Instruction}
    (h : Plain env xs i) (hop : i.op = .jmp ∨ i.op = .jpc) :
    ∃ n : Int, i = .make i.op 0 n := by
  cases h with
  | literal n => rcases hop with h | h <;> cases h
  | operator op => rcases hop with h | h <;> cases h
  | access hop' _ _ => rcases hop' with rfl | rfl | rfl <;> rcases hop with h | h <;> cases h
  | input _ => rcases hop with h | h <;> cases h
  | output _ => rcases hop with h | h <;> cases h
  | jump target _ => exact ⟨target, rfl⟩

/-- All instructions of a list are plain. -/
abbrev AllPlain (env : Environment) (xs : List Ident) (is : List Instruction) : Prop :=
  ∀ i ∈ is, Plain env xs i

namespace AllPlain

variable {env : Environment} {xs ys : List Ident} {i : Instruction} {is js : List Instruction}

theorem nil : AllPlain env xs [] := fun _ hi => absurd hi List.not_mem_nil

/-- Code in turn, over the identifiers of both parts. -/
theorem append (his : AllPlain env xs is) (hjs : AllPlain env ys js) :
    AllPlain env (xs ++ ys) (is ++ js) := by
  intro i hi
  rcases List.mem_append.1 hi with hi | hi
  · exact (his i hi).mono fun x => List.mem_append_left _
  · exact (hjs i hi).mono fun x => List.mem_append_right _

theorem single (hi : Plain env xs i) : AllPlain env xs [i] := by
  intro j hj
  rw [List.mem_singleton.1 hj]
  exact hi

/-- One more instruction at the end. -/
theorem snoc (his : AllPlain env xs is) (hi : Plain env xs i) :
    AllPlain env xs (is ++ [i]) := by
  intro j hj
  rcases List.mem_append.1 hj with hj | hj
  · exact his j hj
  · exact single hi j hj

theorem cons (hi : Plain env xs i) (his : AllPlain env xs is) : AllPlain env xs (i :: is) := by
  intro j hj
  rcases List.mem_cons.1 hj with rfl | hj
  · exact hi
  · exact his j hj

/-- Phrases in turn, each over its own identifiers. -/
theorem collect {α : Type} {f : α → Except CodegenError (List Instruction)} {g : α → List Ident}
    (hf : ∀ x is, f x = .ok is → AllPlain env (g x) is) :
    ∀ {as : List α} {is : List Instruction}, collect f as = .ok is →
      AllPlain env (as.flatMap g) is := by
  intro as
  induction as with
  | nil =>
    intro is h
    cases pure_eq_ok_iff.1 h
    exact AllPlain.nil
  | cons x as ih =>
    intro is h
    obtain ⟨is, his, js, hjs, rfl⟩ := collect_cons_eq_ok_iff.1 h
    exact (hf x is his).append (ih hjs)

end AllPlain

/-- The property holds of what expressions over the identifiers `xs` are made of: numbers, operators
    and loads of the identifiers. -/
structure ExprProperty (env : Environment) (xs : List Ident) (P : Instruction → Prop) : Prop where
  literal : ∀ n, P (.make .lit 0 n)
  operator : ∀ op, P (.apply op)
  load : ∀ x ∈ xs, ∀ a, env.resolve x.name = some a → P (.make .lod a.level a.symbol.slot)

section

variable {env : Environment} {xs ys : List Ident} {P : Instruction → Prop}

/-- What holds for all names holds for those of a part. -/
theorem ExprProperty.left (h : ExprProperty env (xs ++ ys) P) : ExprProperty env xs P where
  literal := h.literal
  operator := h.operator
  load := fun x hx => h.load x (List.mem_append_left _ hx)

theorem ExprProperty.right (h : ExprProperty env (xs ++ ys) P) : ExprProperty env ys P where
  literal := h.literal
  operator := h.operator
  load := fun x hx => h.load x (List.mem_append_right _ hx)

mutual

/-- **What an expression is made of**, its code is made of. -/
theorem Expr.forall_code {e : Expr} {is : List Instruction} (hP : ExprProperty env e.idents P)
    (h : e.code env = .ok is) : ∀ i ∈ is, P i := by
  cases e with
  | mk sign ts =>
    have hts : ts.code env = .ok is := h
    exact Terms.forall_code hP hts

/-- The instructions of both operands, and the operator. -/
theorem Terms.forall_code {ts : Terms} {is : List Instruction}
    (hP : ExprProperty env ts.idents P) (h : ts.code env = .ok is) : ∀ i ∈ is, P i := by
  cases ts with
  | single t => exact Term.forall_code (t := t) hP h
  | join left op right =>
    obtain ⟨ls, hl, rs, hr, rfl⟩ := Terms.code_join_eq_ok_iff.1 h
    rw [List.forall_mem_append, List.forall_mem_append, List.forall_mem_singleton]
    exact ⟨⟨Terms.forall_code hP.left hl, Term.forall_code hP.right hr⟩, hP.operator _⟩

theorem Term.forall_code {t : Term} {is : List Instruction} (hP : ExprProperty env t.idents P)
    (h : t.code env = .ok is) : ∀ i ∈ is, P i := by
  cases t with
  | single f => exact Factor.forall_code (f := f) hP h
  | join left op right =>
    obtain ⟨ls, hl, rs, hr, rfl⟩ := Term.code_join_eq_ok_iff.1 h
    rw [List.forall_mem_append, List.forall_mem_append, List.forall_mem_singleton]
    exact ⟨⟨Term.forall_code hP.left hl, Factor.forall_code hP.right hr⟩, hP.operator _⟩

/-- A name is loaded, and a number is a literal; this is where the instructions come from. -/
theorem Factor.forall_code {f : Factor} {is : List Instruction}
    (hP : ExprProperty env f.idents P) (h : f.code env = .ok is) : ∀ i ∈ is, P i := by
  cases f with
  | ident x =>
    obtain ⟨a, ha, rfl, -⟩ := Factor.code_ident_eq_ok_iff.1 h
    rw [List.forall_mem_singleton]
    exact hP.load x (List.mem_singleton_self x) a ha
  | number n =>
    cases pure_eq_ok_iff.1 h
    rw [List.forall_mem_singleton]
    exact hP.literal n.value
  | group e => exact Expr.forall_code (e := e) hP h

end

/-- A condition is made of what expressions are made of. -/
theorem Condition.forall_code {c : Condition} {is : List Instruction}
    (hP : ExprProperty env c.idents P) (h : c.code env = .ok is) : ∀ i ∈ is, P i := by
  cases c with
  | odd e =>
    obtain ⟨ls, hl, rfl⟩ := Condition.code_odd_eq_ok_iff.1 h
    rw [List.forall_mem_append, List.forall_mem_singleton]
    exact ⟨Expr.forall_code hP hl, hP.operator _⟩
  | compare left r right =>
    obtain ⟨ls, hl, rs, hr, rfl⟩ := Condition.code_compare_eq_ok_iff.1 h
    rw [List.forall_mem_append, List.forall_mem_append, List.forall_mem_singleton]
    exact ⟨⟨Expr.forall_code hP.left hl, Expr.forall_code hP.right hr⟩, hP.operator _⟩

end

/-- What expressions are made of is plain. -/
theorem exprProperty_plain (env : Environment) (xs : List Ident) :
    ExprProperty env xs (Plain env xs) where
  literal := .literal
  operator := .operator
  load := fun _ hx _ ha => .access (Or.inl rfl) hx ha

theorem Expr.plain_code {e : Expr} {env : Environment} {is : List Instruction}
    (h : e.code env = .ok is) : AllPlain env e.idents is :=
  Expr.forall_code (exprProperty_plain env _) h

theorem Condition.plain_code {c : Condition} {env : Environment} {is : List Instruction}
    (h : c.code env = .ok is) : AllPlain env c.idents is :=
  Condition.forall_code (exprProperty_plain env _) h

/-- The code for a target of `read` uses the input channel and the target. -/
theorem plain_readCode {env : Environment} {input : Address}
    (hin : env.resolve readChannel = some input) {x : Ident} {is : List Instruction}
    (h : readCode env input x = .ok is) : AllPlain env [x] is := by
  obtain ⟨a, ha, -, -, rfl⟩ := readCode_eq_ok_iff.1 h
  refine AllPlain.cons (.input hin) (AllPlain.single ?_)
  exact .access (Or.inr (Or.inl rfl)) (List.mem_singleton_self x) ha

/-- The code for a value of `write` ends with the output channel. -/
theorem plain_writeCode {env : Environment} {output : Address}
    (hout : env.resolve writeChannel = some output) {e : Expr} {is : List Instruction}
    (h : writeCode env output e = .ok is) : AllPlain env e.idents is := by
  obtain ⟨es, he, -, rfl⟩ := writeCode_eq_ok_iff.1 h
  exact (Expr.plain_code he).snoc (.output hout)

mutual

/-- **The instructions of a statement**: what has a level has it from a name of the statement or
    from a channel. -/
theorem Statement.plain_code {s : Statement} {env : Environment} {a : Nat}
    {is : List Instruction} (h : s.code env a = .ok is) : AllPlain env s.idents is := by
  cases s with
  | empty =>
    cases pure_eq_ok_iff.1 h
    exact AllPlain.nil
  | block body =>
    have hbody : Statement.codes env a body = .ok is := h
    exact Statement.plain_codes hbody
  | read targets =>
    obtain ⟨input, hin, h⟩ := Statement.code_read_eq_ok_iff.1 h
    have hall := AllPlain.collect (g := fun x => [x]) (fun _ _ => plain_readCode hin) h
    rwa [List.flatMap_singleton'] at hall
  | write values =>
    obtain ⟨output, hout, h⟩ := Statement.code_write_eq_ok_iff.1 h
    exact AllPlain.collect (fun _ _ => plain_writeCode hout) h
  | call x =>
    obtain ⟨a, ha, rfl, -⟩ := Statement.code_call_eq_ok_iff.1 h
    exact AllPlain.single (.access (Or.inr (Or.inr rfl)) (List.mem_singleton_self x) ha)
  | whileDo c body =>
    obtain ⟨test, ht, bs, hb, -, -, rfl⟩ := Statement.code_whileDo_eq_ok_iff.1 h
    -- Test, jump out of the loop, body, jump back.
    refine (Condition.plain_code ht).append (AllPlain.cons (.jump _ (Or.inr rfl)) ?_)
    exact (Statement.plain_code hb).snoc (.jump _ (Or.inl rfl))
  | assign x e =>
    obtain ⟨es, he, a, ha, -, rfl⟩ := Statement.code_assign_eq_ok_iff.1 h
    refine (Expr.plain_code he).append (AllPlain.single ?_)
    exact .access (Or.inr (Or.inl rfl)) (List.mem_singleton_self x) ha
  | ifThen c body =>
    obtain ⟨test, ht, bs, hb, -, rfl⟩ := Statement.code_ifThen_eq_ok_iff.1 h
    exact (Condition.plain_code ht).append
      (AllPlain.cons (.jump _ (Or.inr rfl)) (Statement.plain_code hb))

/-- Statements in turn. -/
theorem Statement.plain_codes {ss : List Statement} {env : Environment} {a : Nat}
    {is : List Instruction} (h : Statement.codes env a ss = .ok is) :
    AllPlain env (Statement.identsOf ss) is := by
  cases ss with
  | nil =>
    cases pure_eq_ok_iff.1 h
    exact AllPlain.nil
  | cons s ss =>
    obtain ⟨is, his, js, hjs, rfl⟩ := Statement.codes_cons_eq_ok_iff.1 h
    exact (Statement.plain_code his).append (Statement.plain_codes hjs)

end

end PL0
