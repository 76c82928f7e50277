import PL0.Proofs.Codegen.Sites
import PL0.Proofs.Semantics.Clocked

/-!
# `Semantics.Leveled` — an interpreter that counts levels from the top

The interpreter works on the tree. Its state is a stack of blocks above the I/O block, an input
queue and an output list. A name stands for the level and the slot that the scopes around it give,
but the level is counted from the top of the stack of blocks at that moment. So a call made where
more blocks are open than scopes works on other blocks than the text suggests, and a call may run
any subprogram whose entry address it finds in its slot.

Main definition: `Program.interpret`.
-/

namespace PL0

open Clocked

/-- The blocks above the I/O block, the input not yet taken, and the output so far. -/
structure Store where
  memory : Memory
  input : List Int
  output : List Int
deriving DecidableEq, Repr

namespace Store

/-- The value at a level and slot. -/
def fetch (level slot : Nat) : EStateM Stop Store Int := fun st =>
  match st.memory.cell level slot with
  | some (.slot _ _ v) => .ok v st
  | some .input =>
    match st.input with
    | [] => .error (.fault .inputExhausted) st
    | v :: input => .ok v { st with input }
  | some .output => .error (.fault (.invalidAddress level slot)) st
  | none => .error (.fault (.invalidAddress level slot)) st

/-- Put a value at a level and slot. -/
def put (level slot : Nat) (v : Int) : EStateM Stop Store Unit := fun st =>
  match st.memory.cell level slot with
  | some (.slot l k _) => .ok () { st with memory := st.memory.set l k v }
  | some .output => .ok () { st with output := st.output ++ [v] }
  | some .input => .error (.fault (.invalidAddress level slot)) st
  | none => .error (.fault (.invalidAddress level slot)) st

/-- Open a block of zeros. -/
def openBlock (size : Nat) : EStateM Stop Store Unit := fun st =>
  match st.memory.enter? size with
  | some memory => .ok () { st with memory }
  | none => .error (.fault (.blockTooLarge size)) st

/-- Close the innermost block. -/
def closeBlock : EStateM Stop Store Unit := fun st =>
  match st.memory.exit? with
  | some memory => .ok () { st with memory }
  | none => .error (.fault .noActiveBlock) st

end Store

/-- What a name of the scopes stands for. -/
def Environment.denote {α : Type} (env : Environment) (name : String)
    (f : Nat → Nat → EStateM Stop Store α) : EStateM Stop Store α :=
  match env.resolve name with
  | some a => f a.level a.symbol.slot
  | none => throw .unbound

theorem denote_eq {α : Type} {env : Environment} {name : String} {addr : Address}
    (h : env.resolve name = some addr) (f : Nat → Nat → EStateM Stop Store α) :
    env.denote name f = f addr.level addr.symbol.slot := by
  unfold Environment.denote
  rw [h]

theorem denote_eq_throw {α : Type} {env : Environment} {name : String}
    (h : env.resolve name = none) (f : Nat → Nat → EStateM Stop Store α) :
    env.denote name f = throw .unbound := by
  unfold Environment.denote
  rw [h]

/-- Access to the store under the scopes `env`; `run` says what a called value does. -/
def Environment.access (env : Environment) (run : Int → Clocked Store Unit) : Access Store where
  load x := env.denote x.name Store.fetch
  store x v := env.denote x.name fun level slot => Store.put level slot v
  read := env.denote readChannel Store.fetch
  write v := env.denote writeChannel fun level slot => Store.put level slot v
  call x := do
    let v ← act (env.denote x.name Store.fetch)
    run v

/-! ## Subprograms and their entry addresses -/

mutual

/-- The subprogram of a block at address `a`, and all those inside it. -/
def Block.subprograms (name : Option Ident) (env : Environment) (a : Nat) :
    Block → List Subprogram
  | .mk consts vars ps body =>
    let b : Block := .mk consts vars ps body
    ⟨name, a, env, b⟩ :: Procedure.subprograms env b.dataScope (a + 1 + 2 * consts.length) ps

/-- The subprograms of procedures declared in the scope `sc`, and all those inside them. -/
def Procedure.subprograms (env : Environment) (sc : Scope) (a : Nat) :
    List Procedure → List Subprogram
  | [] => []
  | .mk x b :: ps =>
    let p : Procedure := .mk x b
    b.subprograms (some x) (env.nest (sc.declareProcedure p)) (a + 3) ++
      Procedure.subprograms env (sc.declareProcedure p) (a + p.codeSize) ps

end

/-- All subprograms of a program. -/
def Program.subprograms (p : Program) : List Subprogram :=
  p.block.subprograms none Environment.initial 0

/-- The subprogram whose entry address a value is. -/
def Program.subprogramAt? (p : Program) (v : Int) : Option Subprogram :=
  p.subprograms.find? fun s => (s.entry : Int) == v

theorem Subprogram.subprograms_eq (s : Subprogram) :
    s.block.subprograms s.name s.outer s.entry =
      s :: Procedure.subprograms s.outer s.block.dataScope s.proceduresStart
        s.block.procedures := by
  obtain ⟨name, entry, outer, consts, vars, ps, body⟩ := s
  rfl

theorem mem_subprograms_of_declared {env : Environment} {sc : Scope} {a : Nat}
    {ps : List Procedure} {t u : Subprogram} (ht : t ∈ Subprogram.declared env sc a ps)
    (hu : u ∈ t.block.subprograms t.name t.outer t.entry) :
    u ∈ Procedure.subprograms env sc a ps := by
  induction ps generalizing sc a with
  | nil => cases ht
  | cons p ps ih =>
    obtain ⟨x, b⟩ := p
    rcases List.mem_cons.1 ht with rfl | ht
    · exact List.mem_append_left _ hu
    · exact List.mem_append_right _ (ih ht)

mutual

theorem Block.nested_of_mem {p : Program} {b : Block} {name : Option Ident} {env : Environment}
    {a : Nat} {path : List Subprogram} {t : Subprogram} (ht : t ∈ b.subprograms name env a)
    (hn : p.Nested (⟨name, a, env, b⟩ :: path)) : ∃ path, p.Nested (t :: path) := by
  cases b with
  | mk consts vars ps body =>
    rcases List.mem_cons.1 ht with rfl | ht
    · exact ⟨path, hn⟩
    · exact Procedure.nested_of_mem ht fun u hu => ⟨_, .inner hn hu⟩

theorem Procedure.nested_of_mem {p : Program} {ps : List Procedure} {env : Environment}
    {sc : Scope} {a : Nat} {t : Subprogram} (ht : t ∈ Procedure.subprograms env sc a ps)
    (hn : ∀ u ∈ Subprogram.declared env sc a ps, ∃ path, p.Nested (u :: path)) :
    ∃ path, p.Nested (t :: path) := by
  match ps with
  | [] => cases ht
  | .mk x b :: ps =>
    rcases List.mem_append.1 ht with ht | ht
    · obtain ⟨path, hpath⟩ := hn _ (List.mem_cons_self ..)
      exact Block.nested_of_mem ht hpath
    · exact Procedure.nested_of_mem ht fun u hu => hn u (List.mem_cons_of_mem _ hu)

end

namespace Program

variable {p : Program} {s t : Subprogram} {path : List Subprogram} {v : Int}

theorem Nested.subset_subprograms (hn : p.Nested path) : ∀ s ∈ path.head?,
    ∀ u ∈ s.block.subprograms s.name s.outer s.entry, u ∈ p.subprograms := by
  induction hn with
  | main =>
    rintro s ⟨⟩ u hu
    exact hu
  | @inner s t path _ ht ih =>
    rintro t' ⟨⟩ u hu
    refine ih s rfl u ?_
    rw [Subprogram.subprograms_eq]
    exact List.mem_cons_of_mem _ (mem_subprograms_of_declared ht hu)

theorem mem_subprograms_iff : s ∈ p.subprograms ↔ ∃ path, p.Nested (s :: path) := by
  constructor
  · exact fun hs => Block.nested_of_mem hs .main
  · rintro ⟨path, hn⟩
    refine hn.subset_subprograms s rfl s ?_
    rw [Subprogram.subprograms_eq]
    exact List.mem_cons_self ..

/-- **An entry address** belongs to one subprogram. -/
theorem subprogramAt?_eq_some_iff :
    p.subprogramAt? v = some s ↔ v = s.entry ∧ ∃ path, p.Nested (s :: path) := by
  rw [← mem_subprograms_iff]
  constructor
  · intro h
    have hentry := List.find?_some h
    rw [beq_iff_eq] at hentry
    exact ⟨hentry.symm, List.mem_of_find?_eq_some h⟩
  · rintro ⟨rfl, hs⟩
    cases hfind : p.subprogramAt? s.entry with
    | none =>
      have hne := List.find?_eq_none.1 hfind s hs
      rw [beq_self_eq_true] at hne
      exact absurd rfl hne
    | some t =>
      have hentry := List.find?_some hfind
      rw [beq_iff_eq, Int.natCast_inj] at hentry
      obtain ⟨path, hn⟩ := mem_subprograms_iff.1 hs
      obtain ⟨path', hn'⟩ := mem_subprograms_iff.1 (List.mem_of_find?_eq_some hfind)
      -- The first subprogram found at the address is `s`, since an address has one owner.
      have howns : s.Owns t.entry := hentry ▸ s.owns_entry
      have heq := hn'.eq_of_owns hn t.owns_entry howns
      rw [(List.cons.inj heq).1]

end Program

/-! ## The interpreter -/

namespace Subprogram

/-- Store the first value of a name declared in the innermost block. -/
def initialise (s : Subprogram) (name : Option Ident) (v : Int) : EStateM Stop Store Unit :=
  match name.bind fun x => s.block.scope.get? x.name with
  | some symbol => Store.put 0 symbol.slot v
  | none => throw .unbound

/-- Store the constants and the entry addresses of the procedures. -/
def prologue (s : Subprogram) : Clocked Store Unit := do
  each (fun d => do
    let v ← act (pure d.value.value)
    act (s.initialise (some d.name) v)) s.block.consts
  each (fun t => do
    let v ← act (pure (t.entry : Int))
    act (s.initialise t.name v)
    pause) s.inner

/-- Open a block with a slot for each distinct name, store what is declared, and run the statement
    part. -/
def activation (s : Subprogram) (run : Int → Clocked Store Unit) (gas : Nat) :
    Clocked Store Unit := do
  act (Store.openBlock s.block.names.dedup.length)
  s.prologue
  s.block.body.exec (s.scopes.access run) gas

end Subprogram

/-- Run a subprogram and close its block. A call runs the subprogram whose entry address it came
    upon. -/
def Program.run (p : Program) : (gas : Nat) → Subprogram → Clocked Store Unit
  | 0, _ => throw .timeout
  | gas + 1, s => do
    s.activation (fun v =>
      match p.subprogramAt? v with
      | some t => p.run gas t
      | none => throw (.stray v)) gas
    act Store.closeBlock

namespace Program

/-- What a called value does, with `gas` left. -/
def dispatch (p : Program) (gas : Nat) (v : Int) : Clocked Store Unit :=
  match p.subprogramAt? v with
  | some t => p.run gas t
  | none => throw (.stray v)

theorem run_succ (p : Program) (gas : Nat) (s : Subprogram) :
    p.run (gas + 1) s = s.activation (p.dispatch gas) gas >>= fun _ => act Store.closeBlock := rfl

end Program

/-- The stage of a program after `t` actions, from an empty stack of blocks. -/
def Program.interpret (p : Program) (input : List Int) (t : Nat) :
    EStateM.Result Stop (Nat × Store) Unit :=
  p.run (t + 1) p.main (t, ⟨Memory.empty, input, []⟩)

end PL0
