import PL0.Proofs.Machine.Lockstep

/-!
# `Machine.Simulation` — generated code follows the interpreter

The code of every tree follows the evaluation of this tree, as long as its calls do
(`Statement.follows`); calls do because a subprogram leaves the operand stack as it was and returns
right behind its `CAL`, whatever blocks are open (`Program.run_follows`, by induction on the gas).

Main statement: `Program.interpret_agrees`. After any number of steps the machine shows exactly the
blocks, the input and the output of the interpreter at the same stage.
-/

namespace PL0

open Codegen Clocked Machine

section

variable {code : Array Instruction} {gas : Nat} {stack : List Int} {env : Environment}
  {run : Int → Clocked Store Unit}

/-! ## Expressions and conditions

By induction on the tree. The code of an operand lies in front of its operator, so the machine meets
both in the order of evaluation, and every value on the stack is one that the interpreter has bound.
-/

/-- The codes of two operands, one behind the other, and the instruction that takes their values. -/
theorem Follows.operands {left right : Clocked Store Int} {f : Int → Int → EStateM Stop Store Int}
    {a : Nat} {ls rs : List Instruction} {i : Instruction}
    (hl : Located code a (ls ++ rs ++ [i]))
    (hleft : Located code a ls → Follows code gas left a stack (a + ls.length) (· :: stack))
    (hright : ∀ l, Located code (a + ls.length) rs →
      Follows code gas right (a + ls.length) (l :: stack) (a + ls.length + rs.length)
        (· :: l :: stack))
    (hf : ∀ {x l r}, code[x]? = some i → Does code (f l r) x (r :: l :: stack) (x + 1) (· :: stack)) :
    Follows code gas (do
      let l ← left
      let r ← right
      Clocked.act (f l r)) a stack (a + (ls ++ rs ++ [i]).length) (· :: stack) := by
  have hi := hl.next
  rw [List.length_append, ← Nat.add_assoc] at hi
  rw [List.length_append, List.length_append, ← Nat.add_assoc, ← Nat.add_assoc]
  refine (hleft hl.left.left).bind fun l => ?_
  refine (hright l hl.left.right).bind fun r => ?_
  exact Follows.act (hf hi)

mutual

/-- **The code of an expression** leaves its value. -/
theorem Expr.follows {e : Expr} {a : Nat} {is : List Instruction}
    (h : e.code env = .ok is) (hl : Located code a is) (stack : List Int) :
    Follows code gas (e.eval (env.access run)) a stack (a + is.length) (· :: stack) := by
  cases e with
  | mk sign ts =>
    have hts : ts.code env = .ok is := h
    exact Terms.follows hts hl stack

/-- The code of a sum. -/
theorem Terms.follows {ts : Terms} {a : Nat} {is : List Instruction}
    (h : ts.code env = .ok is) (hl : Located code a is) (stack : List Int) :
    Follows code gas (ts.eval (env.access run)) a stack (a + is.length) (· :: stack) := by
  cases ts with
  | single t => exact Term.follows (t := t) h hl stack
  | join left op right =>
    obtain ⟨ls, hls, rs, hrs, rfl⟩ := Terms.code_join_eq_ok_iff.1 h
    have hleft (hl : Located code a ls) :
        Follows code gas (left.eval (env.access run)) a stack _ _ := Terms.follows hls hl stack
    exact Follows.operands hl hleft (fun l hr => Term.follows hrs hr (l :: stack)) does_arith

/-- The code of a product. -/
theorem Term.follows {t : Term} {a : Nat} {is : List Instruction}
    (h : t.code env = .ok is) (hl : Located code a is) (stack : List Int) :
    Follows code gas (t.eval (env.access run)) a stack (a + is.length) (· :: stack) := by
  cases t with
  | single f => exact Factor.follows (f := f) h hl stack
  | join left op right =>
    obtain ⟨ls, hls, rs, hrs, rfl⟩ := Term.code_join_eq_ok_iff.1 h
    have hleft (hl : Located code a ls) :
        Follows code gas (left.eval (env.access run)) a stack _ _ := Term.follows hls hl stack
    exact Follows.operands hl hleft (fun l hr => Factor.follows hrs hr (l :: stack)) does_arith

/-- Here the names are resolved. The code holds the address that the interpreter looks up, so both
    go to the same cell. -/
theorem Factor.follows {f : Factor} {a : Nat} {is : List Instruction}
    (h : f.code env = .ok is) (hl : Located code a is) (stack : List Int) :
    Follows code gas (f.eval (env.access run)) a stack (a + is.length) (· :: stack) := by
  cases f with
  | ident x =>
    obtain ⟨addr, haddr, rfl, -⟩ := Factor.code_ident_eq_ok_iff.1 h
    show Follows code gas (act (env.denote x.name Store.fetch)) a stack (a + 1) _
    rw [denote_eq haddr]
    exact Follows.act (does_lod hl.head)
  | number n =>
    cases pure_eq_ok_iff.1 h
    exact Follows.act (does_lit hl.head)
  | group e => exact Expr.follows (e := e) h hl stack

end

/-- The code of a condition leaves 1 or 0. -/
theorem Condition.follows {c : Condition} {a : Nat} {is : List Instruction}
    (h : c.code env = .ok is) (hl : Located code a is) (stack : List Int) :
    Follows code gas (c.eval (env.access run)) a stack (a + is.length) (· :: stack) := by
  cases c with
  | odd e =>
    obtain ⟨ls, hls, rfl⟩ := Condition.code_odd_eq_ok_iff.1 h
    rw [List.length_append, ← Nat.add_assoc]
    refine (Expr.follows hls hl.left stack).bind fun v => ?_
    exact Follows.act (does_odd hl.next)
  | compare left r right =>
    obtain ⟨ls, hls, rs, hrs, rfl⟩ := Condition.code_compare_eq_ok_iff.1 h
    exact Follows.operands hl (fun hl => Expr.follows hls hl stack)
      (fun l hr => Expr.follows hrs hr (l :: stack)) does_relation

/-! ## Statements

A statement begins and ends with the same operand stack. What it calls is left to `CallsFollow`,
which the induction on the gas provides. -/

/-- Parts in turn, each of which leaves the operand stack as it was. -/
theorem Follows.each {α : Type} {f : α → Clocked Store Unit}
    {g : α → Except CodegenError (List Instruction)}
    (hf : ∀ x a is, g x = .ok is → Located code a is →
      Follows code gas (f x) a stack (a + is.length) fun _ => stack) :
    ∀ {xs : List α} {a : Nat} {is : List Instruction}, collect g xs = .ok is →
      Located code a is → Follows code gas (each f xs) a stack (a + is.length) fun _ => stack := by
  intro xs
  induction xs with
  | nil =>
    intro a is h _
    cases pure_eq_ok_iff.1 h
    exact Follows.pure () rfl
  | cons x xs ih =>
    intro a is h hl
    obtain ⟨is, his, js, hjs, rfl⟩ := collect_cons_eq_ok_iff.1 h
    rw [List.length_append, ← Nat.add_assoc]
    exact (hf x a is his hl.left).bind fun _ => ih hjs hl.right

/-- Two instructions for a target of `read`: the value comes from the input channel. -/
theorem readCode_follows {input : Address} (hin : env.resolve readChannel = some input) {x : Ident}
    {a : Nat} {is : List Instruction} (h : readCode env input x = .ok is) (hl : Located code a is) :
    Follows code gas (do
      let v ← act (env.access run).read
      act ((env.access run).store x v)) a stack (a + is.length) fun _ => stack := by
  obtain ⟨addr, haddr, -, -, rfl⟩ := readCode_eq_ok_iff.1 h
  show Follows code gas (act (env.denote readChannel Store.fetch) >>= fun v =>
    act (env.denote x.name fun level slot => Store.put level slot v)) a stack (a + 1 + 1) _
  rw [denote_eq hin]
  refine (Follows.act (does_lod hl.head)).bind fun v => ?_
  rw [denote_eq haddr]
  exact Follows.act (does_sto hl.tail.head)

/-- The value of an expression goes to the output channel. -/
theorem writeCode_follows {output : Address} (hout : env.resolve writeChannel = some output)
    {e : Expr} {a : Nat} {is : List Instruction} (h : writeCode env output e = .ok is)
    (hl : Located code a is) :
    Follows code gas (do
      let v ← e.eval (env.access run)
      act ((env.access run).write v)) a stack (a + is.length) fun _ => stack := by
  obtain ⟨es, hes, -, rfl⟩ := writeCode_eq_ok_iff.1 h
  rw [List.length_append, ← Nat.add_assoc]
  refine (Expr.follows hes hl.left stack).bind fun v => ?_
  show Follows code gas (act (env.denote writeChannel fun level slot => Store.put level slot v)) _ _
    (a + es.length + 1) _
  rw [denote_eq hout]
  exact Follows.act (does_sto hl.next)

/-- Every `CAL` follows the call of its name and returns behind itself. -/
def CallsFollow (code : Array Instruction) (gas : Nat) (env : Environment)
    (run : Int → Clocked Store Unit) (stack : List Int) : Prop :=
  ∀ (f : Ident) (addr : Address) (x : Nat), env.resolve f.name = some addr →
    code[x]? = some (.make .cal addr.level addr.symbol.slot) →
    Follows code gas ((env.access run).call f) x stack (x + 1) fun _ => stack

mutual

/-- **The code of a statement** follows it and leaves the operand stack as it was. -/
theorem Statement.follows {s : Statement} {a : Nat} {is : List Instruction}
    (hcalls : CallsFollow code gas env run stack) (h : s.code env a = .ok is)
    (hl : Located code a is) :
    Follows code gas (s.exec (env.access run) gas) a stack (a + is.length) fun _ => stack := by
  cases s with
  | empty =>
    cases pure_eq_ok_iff.1 h
    exact Follows.pure () rfl
  | block body =>
    have hbody : Statement.codes env a body = .ok is := h
    exact Statement.follows_all hcalls hbody hl
  | read targets =>
    obtain ⟨input, hin, h⟩ := Statement.code_read_eq_ok_iff.1 h
    exact Follows.each (fun _ _ _ => readCode_follows hin) h hl
  | write values =>
    obtain ⟨output, hout, h⟩ := Statement.code_write_eq_ok_iff.1 h
    exact Follows.each (fun _ _ _ => writeCode_follows hout) h hl
  | call x =>
    obtain ⟨addr, haddr, rfl, -⟩ := Statement.code_call_eq_ok_iff.1 h
    exact hcalls x addr a haddr hl.head
  | whileDo c body =>
    obtain ⟨test, ht, bs, hb, -, -, rfl⟩ := Statement.code_whileDo_eq_ok_iff.1 h
    have hbody : Follows code gas (body.exec (env.access run) gas) (a + test.length + 1) stack
      (a + test.length + 1 + bs.length) _ := Statement.follows hcalls hb hl.right.tail.left
    have hjmp := hl.right.tail.next
    have htest : Follows code gas (c.eval (env.access run)) a stack _ _ :=
      Condition.follows ht hl.left stack
    have hend (i j : Instruction) :
        a + (test ++ i :: (bs ++ [j])).length = a + test.length + 1 + bs.length + 1 := by
      simp only [List.length_append, List.length_cons, List.length_nil]
      omega
    rw [hend]
    -- Round and round between the test, the `JPC` behind it and the `JMP` behind the body.
    exact Follows.loop htest (fun v => does_jpc hl.next) hbody (does_jmp hjmp) (Nat.le_refl gas)
  | assign x e =>
    obtain ⟨es, hes, addr, haddr, -, rfl⟩ := Statement.code_assign_eq_ok_iff.1 h
    rw [List.length_append, ← Nat.add_assoc]
    refine (Expr.follows hes hl.left stack).bind fun v => ?_
    show Follows code gas (act (env.denote x.name fun level slot => Store.put level slot v)) _ _
      (a + es.length + 1) _
    rw [denote_eq haddr]
    exact Follows.act (does_sto hl.next)
  | ifThen c body =>
    obtain ⟨test, ht, bs, hb, -, rfl⟩ := Statement.code_ifThen_eq_ok_iff.1 h
    have hbody : Follows code gas (body.exec (env.access run) gas) (a + test.length + 1) stack
      (a + test.length + 1 + bs.length) _ := Statement.follows hcalls hb hl.right.tail
    have hend (i : Instruction) :
        a + (test ++ i :: bs).length = a + test.length + 1 + bs.length := by
      simp only [List.length_append, List.length_cons]
      omega
    rw [hend]
    refine (Condition.follows ht hl.left stack).bind fun v => ?_
    -- The interpreter takes time for the `JPC`, whether it jumps or not.
    refine (Follows.act (does_jpc hl.next)).bind fun _ => ?_
    by_cases hv : v = 0
    · rw [if_pos hv, if_pos hv]
      exact Follows.pure () rfl
    · rw [if_neg hv, if_neg hv]
      exact hbody

/-- The code of statements that follow each other. -/
theorem Statement.follows_all {ss : List Statement} {a : Nat} {is : List Instruction}
    (hcalls : CallsFollow code gas env run stack) (h : Statement.codes env a ss = .ok is)
    (hl : Located code a is) :
    Follows code gas (Statement.execAll (env.access run) gas ss) a stack (a + is.length)
      fun _ => stack := by
  cases ss with
  | nil =>
    cases pure_eq_ok_iff.1 h
    exact Follows.pure () rfl
  | cons s ss =>
    obtain ⟨is, his, js, hjs, rfl⟩ := Statement.codes_cons_eq_ok_iff.1 h
    rw [List.length_append, ← Nat.add_assoc]
    have hfirst : Follows code gas (s.exec (env.access run) gas) a stack _ _ :=
      Statement.follows hcalls his hl.left
    exact hfirst.bind fun _ => Statement.follows_all hcalls hjs hl.right

end

end

/-! ## Subprograms

An activation stores its constants and the entry addresses of its procedures before the statement
part starts. The slots are those that the scope of the block has for the names, and `Placed` says
where the code for all this lies. -/

namespace Subprogram

variable {code : Array Instruction} {gas : Nat} {stack : List Int} {s : Subprogram}

/-- What is declared goes to its slot in the block just opened. -/
theorem initialise_eq {x : Ident} {sym : Symbol} (h : s.block.scope.get? x.name = some sym)
    (v : Int) : s.initialise (some x) v = Store.put 0 sym.slot v := by
  unfold initialise
  rw [Option.bind_some, h]

/-- The constants are stored one after the other. Each of them is declared in the scope of those
    before it, which the scope of the block extends. -/
theorem consts_follow {sc : Scope} {ds : List ConstDecl} {a : Nat} {is : List Instruction}
    (h : constsCode sc ds = .ok is) (hl : Located code a is)
    (hext : s.block.scope.Extends (ds.foldl Scope.declareConst sc)) :
    Follows code gas (each (fun d => do
      let v ← act (pure d.value.value)
      act (s.initialise (some d.name) v)) ds) a stack (a + is.length) fun _ => stack := by
  induction ds generalizing sc a is with
  | nil =>
    cases pure_eq_ok_iff.1 h
    exact Follows.pure () rfl
  | cons d ds ih =>
    obtain ⟨is, his, js, hjs, rfl⟩ := constsCode_cons_eq_ok_iff.1 h
    obtain ⟨-, rfl⟩ := constCode_eq_ok_iff.1 his
    have hget := (hext.trans (Scope.extends_consts ds _)).get?
      (Scope.get?_declare sc d.name.name .const (some d.value.value))
    rw [List.length_append, ← Nat.add_assoc]
    refine Follows.bind ?_ fun _ => ih hjs hl.right hext
    refine (Follows.act (does_lit hl.head)).bind fun v => ?_
    rw [initialise_eq hget]
    exact Follows.act (does_sto hl.left.tail.head)

/-- The entry addresses are stored, and the blocks that they are addresses of are jumped over. -/
theorem inner_follow {env : Environment} {sc : Scope} {ps : List Procedure} {a : Nat}
    {is : List Instruction} (h : Procedure.codes env sc a ps = .ok is) (hl : Located code a is)
    (hext : s.block.scope.Extends (ps.foldl Scope.declareProcedure sc)) :
    Follows code gas (each (fun t => do
      let v ← act (pure (t.entry : Int))
      act (s.initialise t.name v)
      pause) (declared env sc a ps)) a stack (a + is.length) fun _ => stack := by
  induction ps generalizing sc a is with
  | nil =>
    cases pure_eq_ok_iff.1 h
    exact Follows.pure () rfl
  | cons p ps ih =>
    obtain ⟨is, his, js, hjs, rfl⟩ := Procedure.codes_cons_eq_ok_iff.1 h
    have hlen := Procedure.length_code his
    have hrest := hl.right
    rw [hlen] at hjs hrest
    obtain ⟨-, -, bs, hbs, -, rfl⟩ := Procedure.code_eq_ok_iff.1 his
    have hget := (hext.trans (Scope.extends_procedures ps _)).get?
      (Scope.get?_declare sc p.name.name .procedure none)
    rw [List.length_append, ← Nat.add_assoc, hlen]
    refine Follows.bind ?_ fun _ => ih hjs hrest hext
    refine (Follows.act (does_lit hl.head)).bind fun v => ?_
    show Follows code gas (act (s.initialise (some p.name) v) >>= fun _ => pause) _ _ _ _
    rw [initialise_eq hget]
    refine (Follows.act (does_sto hl.tail.head)).bind fun _ => ?_
    -- The third instruction jumps to the next procedure, over the block of this one.
    have hskip := hl.tail.tail.head
    rw [show a + 3 + bs.length = a + p.codeSize by
      rw [← hlen]
      simp only [List.length_cons]
      omega] at hskip
    exact Follows.act (does_jmp hskip)

/-- **Opening a block**, storing what it declares, and running its statement part. -/
theorem activation_follows (hs : s.Placed code) {run : Int → Clocked Store Unit}
    (hcalls : CallsFollow code gas s.scopes run stack) :
    Follows code (gas + 1) (s.activation run gas) s.entry stack s.last fun _ => stack := by
  obtain ⟨cs, hcs, hcl⟩ := hs.consts
  obtain ⟨ps, hps, hpl⟩ := hs.procedures
  obtain ⟨bs, hbs, hbl⟩ := hs.body
  have hopening := hs.opening
  rw [Block.size_scope] at hopening
  have hconsts : Follows code gas _ _ stack _ _ := consts_follow hcs hcl
    (s.block.extends_dataScope.trans (Scope.extends_vars s.block.vars _))
  rw [length_constsCode hcs] at hconsts
  have hinner : Follows code gas _ _ stack _ _ := inner_follow hps hpl (Scope.Extends.refl _)
  rw [Procedure.length_codes hps] at hinner
  have hbody := Statement.follows hcalls hbs hbl
  rw [Statement.length_code hbs] at hbody
  -- `INT`, the constants, the procedures and the statement part follow each other.
  refine Follows.act_bind (does_int hopening) fun _ => ?_
  exact (hconsts.bind fun _ => hinner).bind fun _ => hbody

end Subprogram

/-- **A call** of a value that is an entry address, or of any other. -/
theorem Follows.call {code : Array Instruction} {gas x level slot : Nat} {stack : List Int}
    {run : Int → Clocked Store Unit} (hcal : code[x]? = some (.make .cal level slot))
    (hrun : ∀ v : Int, (∃ t : Nat, v = t ∧
        Follows code gas (run v) t (((x + 1 : Nat) : Int) :: stack) (x + 1) fun _ => stack) ∨
      run v = throw (.stray v)) :
    Follows code gas (Clocked.act (Store.fetch level slot) >>= run) x stack (x + 1)
      fun _ => stack := by
  intro clock hclock st
  cases clock with
  | zero =>
    rw [bind_of_error (act_zero _ st)]
    exact ⟨_, rfl, st.shows_machine code x stack⟩
  | succ n =>
    rcases st.fetch_cases level slot with ⟨v, st', hf, hm⟩ | ⟨f, hf, hm⟩
    · rw [bind_of_ok (act_succ_of_ok hf n)]
      rcases hrun v with ⟨t, rfl, ht⟩ | hstray
      · refine (ht n (Nat.lt_of_succ_lt hclock) st').behind (Nat.le_succ n) ?_
        -- The `CAL` is the first step of the run of what it calls.
        rw [Nat.add_sub_cancel_left]
        refine ⟨_, Store.step_of_done hcal ?_, rfl⟩
        simp only [Machine.execute, Instruction.make, hm]
        exact Store.jump_machine st' code (x + 1) _ t
      · rw [hstray]
        -- The `CAL` is the next instruction and loads the value.
        refine ⟨0, _, Nat.succ_pos n, rfl, x, level, slot, _, ?_, hm code x stack,
          st'.shows_machine code x stack⟩
        simp [Machine.fetch?, Store.machine, hcal]
    · rw [bind_of_error (act_succ_of_error hf n)]
      -- The `CAL` has the fault of the load.
      refine ⟨0, _, x, _, Nat.succ_pos n, rfl, Store.step_of_fault hcal ?_,
        st.shows_machine code (x + 1) stack⟩
      simp only [Machine.execute, Instruction.make, hm]
      rfl

namespace Program

variable {p : Program} {code : Array Instruction} {s : Subprogram} {path : List Subprogram}

/-- Calls are followed where the subprograms that they run are. -/
theorem calls_follow {gas : Nat} {stack : List Int}
    (hrun : ∀ {t : Subprogram} {path : List Subprogram}, p.Nested (t :: path) → ∀ target : Nat,
      Follows code gas (p.run gas t) t.entry (target :: stack) target fun _ => stack) :
    CallsFollow code gas s.scopes (p.dispatch gas) stack := by
  intro f addr x haddr hcal
  show Follows code gas (act (s.scopes.denote f.name Store.fetch) >>= p.dispatch gas) _ _ _ _
  rw [denote_eq haddr]
  refine Follows.call hcal fun v => ?_
  unfold dispatch
  cases ht : p.subprogramAt? v with
  | none => exact Or.inr rfl
  | some t =>
    obtain ⟨hv, path', hn'⟩ := subprogramAt?_eq_some_iff.1 ht
    exact Or.inl ⟨t.entry, hv, hrun hn' (x + 1)⟩

/-- **A subprogram** leaves the operand stack as it was and returns to the address on top of it. -/
theorem Nested.run_follows (hc : p.compile.1 = .ok code) (gas : Nat) {s : Subprogram}
    {path : List Subprogram} (hn : p.Nested (s :: path)) (target : Nat) (stack : List Int) :
    Follows code gas (p.run gas s) s.entry (target :: stack) target fun _ => stack := by
  induction gas generalizing s path target stack with
  | zero => exact fun clock hclock => absurd hclock (Nat.not_lt_zero clock)
  | succ gas ih =>
    have hplaced := hn.placed hc s (List.mem_cons_self ..)
    have hcalls : CallsFollow code gas s.scopes (p.dispatch gas) (target :: stack) :=
      calls_follow fun hn' r => ih hn' r _
    rw [run_succ]
    refine (Subprogram.activation_follows hplaced hcalls).bind fun _ => ?_
    exact Follows.act (does_leave hplaced.closing)

end Program

/-! ## Whole runs

A run of the machine counts its steps, and what has been followed for `n` units of time is the run
after `n` steps. The outermost block differs from all others in one thing: its `OPR 0 0` finds no
return address, and halts the machine. -/

namespace Machine

/-- The run goes through the steps and on from where they lead. -/
theorem Reaches.advance {n : Nat} {m m' : Machine} (h : Reaches n m m') (k steps : Nat) :
    Run.advance (n + k) ⟨.running, steps, m⟩ = Run.advance k ⟨.running, steps + n, m'⟩ := by
  induction n generalizing m steps with
  | zero =>
    rw [Nat.zero_add]
    exact (show m = m' from h) ▸ rfl
  | succ n ih =>
    obtain ⟨m₁, hstep, hrest⟩ := h
    have hfirst : Run.advance (n + k + 1) ⟨.running, steps, m⟩ =
        Run.advance (n + k) ⟨.running, steps + 1, m₁⟩ := by
      simp only [Run.advance, hstep]
    rw [Nat.add_right_comm, hfirst, ih hrest, Nat.add_assoc, Nat.add_comm 1 n]

/-- The run at the end of the steps. -/
theorem Reaches.advance_eq {n : Nat} {m m' : Machine} (h : Reaches n m m') :
    Run.advance n (Run.start m) = ⟨.running, n, m'⟩ := by
  have := h.advance 0 0
  rwa [Nat.zero_add] at this

/-- The run ends with the step that does not answer `running`. -/
theorem Reaches.advance_of_step {n k : Nat} {m m₁ m' : Machine} {o : Outcome} (h : Reaches n m m₁)
    (hstep : m₁.step = (o, m')) (ho : o ≠ .running) (hlt : n < k) :
    Run.advance k (Run.start m) = ⟨o, n, m'⟩ := by
  obtain ⟨j, rfl⟩ := Nat.exists_eq_add_of_lt hlt
  have hadvance := h.advance (j + 1) 0
  rw [Nat.zero_add] at hadvance
  refine hadvance.trans ?_
  simp only [Run.advance, hstep]

end Machine

/-- The run of a machine agrees with a stage of the interpreter after `t` actions. Where the
    interpreter is still at work, or has ended with a fault or in order, so has the machine, and it
    shows the same blocks, input and output. Where the interpreter has come upon a call of a value
    that is no entry address, the machine has been about to load this value. -/
def Agrees (m : Machine) (t : Nat) : EStateM.Result Stop (Nat × Store) Unit → Prop
  | .ok _ (left, st) =>
    let r := Run.advance t (Run.start m)
    r.outcome = .halted ∧ r.steps + 1 + left = t ∧ st.Shows r.machine
  | .error .timeout (_, st) =>
    let r := Run.advance t (Run.start m)
    r.outcome = .running ∧ r.steps = t ∧ st.Shows r.machine
  | .error (.fault f) (_, st) =>
    let r := Run.advance t (Run.start m)
    ∃ x, r.outcome = .fault x f ∧ st.Shows r.machine
  | .error (.stray v) (_, st) =>
    ∃ k < t, let r := Run.advance k (Run.start m)
      r.outcome = .running ∧ r.steps = k ∧ r.machine.Calls v st
  | .error .unbound _ => False

/-- An evaluation that does not come to its end has been followed to where it stopped. -/
theorem Follow.agrees {code : Array Instruction} {m : Machine} {t y : Nat}
    {after : Unit → List Int} {e : Stop} {s : Nat × Store}
    (h : Follow code m t y after (.error e s)) : Agrees m t (.error e s) := by
  obtain ⟨n, st⟩ := s
  cases e with
  | timeout =>
    obtain ⟨m', hreach, hshows⟩ := h
    unfold Agrees
    rw [hreach.advance_eq]
    exact ⟨rfl, rfl, hshows⟩
  | fault f =>
    obtain ⟨k, m₁, x, m', hlt, hreach, hstep, hshows⟩ := h
    unfold Agrees
    rw [hreach.advance_of_step hstep (by simp) hlt]
    exact ⟨x, rfl, hshows⟩
  | stray v =>
    obtain ⟨k, m', hlt, hreach, hcalls⟩ := h
    refine ⟨k, hlt, ?_⟩
    rw [hreach.advance_eq]
    exact ⟨rfl, rfl, hcalls⟩
  | unbound => exact h

namespace Program

variable {p : Program} {code : Array Instruction}

/-- The statement part of the outermost block ends with an empty operand stack, and its `OPR 0 0`
    halts the machine. -/
theorem agrees_closeBlock {m : Machine} {t n last : Nat} {st : Store} (hle : n ≤ t)
    (hreach : Reaches (t - n) m (st.machine code last [])) (hi : code[last]? = some .leave) :
    Agrees m t (act Store.closeBlock (n, st)) := by
  cases n with
  | zero =>
    rw [Nat.sub_zero] at hreach
    -- The time is over in front of the final `OPR 0 0`.
    show Agrees m t (.error .timeout (0, st))
    unfold Agrees
    rw [hreach.advance_eq]
    exact ⟨rfl, rfl, st.shows_machine ..⟩
  | succ n =>
    cases hm : st.memory.exit? with
    | none =>
      have hclose : Store.closeBlock st = .error (.fault .noActiveBlock) st := by
        simp only [Store.closeBlock, hm]
      have hstep : (st.machine code last []).step =
          (.fault last .noActiveBlock, st.machine code (last + 1) []) := by
        refine Store.step_of_fault hi ?_
        show Machine.leave _ = _
        simp only [Machine.leave, Store.machine, hm]
        rfl
      rw [act_succ_of_error hclose]
      unfold Agrees
      rw [hreach.advance_of_step hstep (by simp) (by omega)]
      exact ⟨last, rfl, st.shows_machine ..⟩
    | some memory =>
      have hclose : Store.closeBlock st = .ok () { st with memory } := by
        simp only [Store.closeBlock, hm]
      -- No return address is left, so `OPR 0 0` halts.
      have hstep : (st.machine code last []).step =
          (.halted, { st.machine code (last + 1) [] with memory, ip := none }) := by
        refine Store.step_of_halt hi ?_ rfl
        show Machine.leave _ = _
        simp only [Machine.leave, Store.machine, hm]
        rfl
      rw [act_succ_of_ok hclose]
      unfold Agrees
      rw [hreach.advance_of_step hstep (by simp) (by omega)]
      exact ⟨rfl, by simp only; omega, rfl, rfl, rfl⟩

/-- **At every stage** the run of generated code agrees with the interpreter. -/
theorem interpret_agrees (hc : p.compile.1 = .ok code) (input : List Int) (t : Nat) :
    Agrees (Machine.load code input Sink.unlimited) t (p.interpret input t) := by
  have hn : p.Nested [p.main] := .main
  have hplaced := hn.placed hc p.main (List.mem_cons_self ..)
  have hcalls : CallsFollow code t p.main.scopes (p.dispatch t) [] :=
    calls_follow fun hn' r => hn'.run_follows hc t r []
  have hfollow := Subprogram.activation_follows hplaced hcalls t (Nat.lt_succ_self t)
    ⟨Memory.empty, input, []⟩
  unfold interpret
  rw [run_succ]
  cases hr : p.main.activation (p.dispatch t) t (t, ⟨Memory.empty, input, []⟩) with
  | ok u s =>
    obtain ⟨n, st⟩ := s
    rw [hr] at hfollow
    rw [bind_of_ok hr]
    exact agrees_closeBlock hfollow.1 hfollow.2 hplaced.closing
  | error e s =>
    rw [hr] at hfollow
    rw [bind_of_error hr]
    exact hfollow.agrees

end Program

end PL0
