import Mathlib.Logic.Function.Iterate
import PL0.Machine

/-!
# `Machine.Stepping` — steps past faults, and all that one step can do

A machine can be stepped on after a fault and after it has halted: `Machine.after` is the machine
that `n` steps leave, `Machine.answer` what the step behind them answers. `Machine.Acts` lists
everything an instruction can do, whatever code it comes from and whether it comes to its end or
not, with the whole machine behind it.

Main statement: what `Machine.execute` makes of an instruction is one of these
(`Machine.acts_execute`). Everything that is said about single steps of arbitrary code is read off
it by a case split. That a step leaves the sink alone unless it writes is one such thing that several
others need (`Machine.Writes`, `Machine.step_sink`).
-/

namespace PL0

namespace Instruction

/-- The number of operands that the instruction takes from the stack. -/
def pops : Instruction → Nat
  | ⟨.sto, _, _⟩ => 1
  | ⟨.jpc, _, _⟩ => 1
  | ⟨.opr, _, .operator .odd⟩ => 1
  | ⟨.opr, _, .operator _⟩ => 2
  | _ => 0

/-- The number of operands that the instruction puts on the stack. -/
def pushes : Instruction → Nat
  | ⟨.lit, _, _⟩ => 1
  | ⟨.lod, _, _⟩ => 1
  | ⟨.opr, _, .operator _⟩ => 1
  | _ => 0

end Instruction

/-- A sink that refuses the flush has the value nevertheless, one that refuses the write has not. -/
theorem Sink.written_write (s : Sink) (v : Int) :
    (s.write v).2.written = s.written ∨ (s.write v).2.written = s.written.push v := by
  unfold write
  by_cases hfull : s.fullAfter = some s.flushes
  · rw [if_pos hfull]
    exact .inl rfl
  · rw [if_neg hfull]
    right
    by_cases hstuck : s.stuckAfter = some s.flushes
    · rw [if_pos hstuck]
    · rw [if_neg hstuck]

variable {m m' : Machine} {x : Nat} {i : Instruction} {level : Nat} {offset v : Int}

namespace Machine

/-! ## Steps in a row -/

/-- The machine after `n` steps, whatever they answer. -/
def after (m : Machine) (n : Nat) : Machine := (fun m => m.step.2)^[n] m

/-- The answer of the step that `n` steps come before. -/
def answer (m : Machine) (n : Nat) : Outcome := (m.after n).step.1

/-- No step leaves the machine as it is. -/
@[simp]
theorem after_zero (m : Machine) : m.after 0 = m := rfl

/-- The last of the steps is a step of the machine before it. -/
theorem after_succ (m : Machine) (n : Nat) : m.after (n + 1) = (m.after n).step.2 :=
  Function.iterate_succ_apply' ..

/-- The first of the steps comes before the others. -/
theorem after_step (m : Machine) (n : Nat) : m.step.2.after n = m.after (n + 1) :=
  (Function.iterate_succ_apply ..).symm

/-- What the machine has at first and every step keeps, it has after any number of steps. -/
theorem after_induction {P : Machine → Prop} (h : P m) (hstep : ∀ m, P m → P m.step.2) (n : Nat) :
    P (m.after n) := by
  induction n with
  | zero => exact h
  | succ n ih =>
    rw [after_succ]
    exact hstep _ ih

/-- A history that goes on past faults lists the answers with the machines. -/
theorem history_eq (n : Nat) (m : Machine) :
    history true n m = (List.range n).map fun k => (m.answer k, m.after (k + 1)) := by
  induction n generalizing m with
  | zero => rfl
  | succ n ih =>
    simp only [history, Bool.true_or, if_true, ih, answer, after_step, List.range_succ_eq_map,
      List.map_cons, List.map_map, Function.comp_def]
    rfl

/-! ## One step -/

/-- What a step answers, and the machine it leaves, where its instruction at `x` has ended so. -/
def conclude (x : Nat) (r : Option Interruption × Machine) : Outcome × Machine :=
  match r with
  | (none, m) => (if m.isHalted then .halted else .running, m)
  | (some (.fault f), m) => (.fault x f, m)
  | (some (.refused e), m) => (.refused e, m)

@[simp]
theorem conclude_snd (x : Nat) (r : Option Interruption × Machine) : (conclude x r).2 = r.2 := by
  obtain ⟨e, m⟩ := r
  match e with
  | none => rfl
  | some (.fault _) => rfl
  | some (.refused _) => rfl

/-- The instruction pointer is behind the instruction before it is executed. -/
def advanced (m : Machine) (x : Nat) : Machine := { m with ip := some (x + 1) }

/-- Where there is no next address, nothing happens. -/
theorem step_halted (h : m.ip = none) : m.step = (.halted, m) := by
  simp only [step, h]

/-- Where there is no instruction, the step faults and moves nothing. -/
theorem step_outside (h : m.ip = some x) (hi : m.code[x]? = none) :
    m.step = (.fault x (.codeAddressOutOfRange x), m) := by
  simp only [step, h, hi]

/-- Where there is one, it is executed. -/
theorem step_fetched (h : m.ip = some x) (hi : m.code[x]? = some i) :
    m.step = conclude x ((m.advanced x).execute x i) := by
  simp only [step, h, hi]
  rfl

/-- The instruction fetched is the one at the instruction pointer. -/
theorem fetch?_eq_some_iff :
    m.fetch? = some (x, i) ↔ m.ip = some x ∧ m.code[x]? = some i := by
  unfold fetch?
  cases hip : m.ip with
  | none => simp
  | some y =>
    simp only [Option.bind_eq_bind, Option.bind_some, Option.pure_def, Option.bind_eq_some_iff,
      Option.some.injEq, Prod.mk.injEq]
    constructor
    · rintro ⟨j, hj, rfl, rfl⟩
      exact ⟨rfl, hj⟩
    · rintro ⟨rfl, hj⟩
      exact ⟨i, hj, rfl, rfl⟩

/-! ## What an instruction can do -/

/-- `LOD` and `CAL` get `v` at an address; the last argument is the input they leave. -/
inductive Gets (m : Machine) (level : Nat) (offset : Int) : Int → List Int → Prop
  | slot {l k : Nat} {v : Int} : m.memory.cell level offset = some (.slot l k v) →
      Gets m level offset v m.input
  | input {v : Int} {input : List Int} : m.memory.cell level offset = some .input →
      m.input = v :: input → Gets m level offset v input

/-- Where the instruction sends control, if it is one that does and has all it needs for it. -/
def aim? (m : Machine) (i : Instruction) : Option Int :=
  match i.op, i.offset with
  | .jmp, .number n => some n
  | .jpc, .number n => if m.stack.head? = some 0 then some n else none
  | .cal, .number n =>
    match m.memory.cell i.level n with
    | some (.slot _ _ target) => some target
    | some .input => m.input.head?
    | _ => none
  | .opr, .number n => if n = 0 ∧ m.memory.blocks ≠ [] then m.stack.head? else none
  | _, _ => none

/-- The instruction computes the value from the operands, top first. -/
inductive Computes : Instruction → List Int → Int → Prop
  | literal {level : Nat} {n : Int} : Computes ⟨.lit, level, .number n⟩ [] n
  | odd {level : Nat} {v : Int} :
      Computes ⟨.opr, level, .operator .odd⟩ [v] (Word.ofBool (v % 2 != 0))
  | relation {level : Nat} {rel : Relation} {l r : Int} :
      Computes ⟨.opr, level, .operator (.relation rel)⟩ [r, l] (Word.ofBool (rel.holds l r))
  | arith {level : Nat} {op : Arith} {l r v : Int} : op.eval l r = .ok v →
      Computes ⟨.opr, level, .operator (.arith op)⟩ [r, l] v

/-- The operands that an instruction which goes nowhere has popped by the time it cannot go on, and
    those that are left. -/
inductive Loses : Instruction → List Int → List Int → Prop
  /-- It takes none, or there were none. -/
  | nothing {i : Instruction} {rest : List Int} : i.pops = 0 ∨ rest = [] → Loses i [] rest
  | stored {level : Nat} {offset : Operand} {v : Int} {rest : List Int} :
      Loses ⟨.sto, level, offset⟩ [v] rest
  | tested {level : Nat} {offset : Operand} {v : Int} {rest : List Int} :
      Loses ⟨.jpc, level, offset⟩ [v] rest
  /-- A binary operator has found its right operand only. -/
  | underflow {level : Nat} {op : Operator} {v : Int} : op ≠ .odd →
      Loses ⟨.opr, level, .operator op⟩ [v] []
  /-- A binary operator has no result that is a word. -/
  | combined {level : Nat} {op : Operator} {l r : Int} {rest : List Int} : op ≠ .odd →
      Loses ⟨.opr, level, .operator op⟩ [r, l] rest

/-- What an instruction at address `x` does to `m`: how it ends, and the machine behind it. -/
inductive Acts (x : Nat) (m : Machine) : Instruction → Option Interruption × Machine → Prop
  /-- It cannot go on, and sends control nowhere; the operands popped stay popped. -/
  | stuck {i : Instruction} (f : Fault) (popped rest : List Int) : m.aim? i = none →
      (∀ n, f ≠ .codeAddressOutOfRange n) → m.stack = popped ++ rest →
      Loses i popped rest → Acts x m i ({ m with stack := rest }.fail f)
  | computed {i : Instruction} {popped : List Int} {v : Int} (rest : List Int) :
      Computes i popped v → m.stack = popped ++ rest →
      Acts x m i (done { m with stack := v :: rest })
  | loaded {level : Nat} {offset v : Int} {input : List Int} : m.Gets level offset v input →
      Acts x m ⟨.lod, level, .number offset⟩ (done { m with stack := v :: m.stack, input })
  | stored {level l k : Nat} {offset v w : Int} {rest : List Int} : m.stack = v :: rest →
      m.memory.cell level offset = some (.slot l k w) →
      Acts x m ⟨.sto, level, .number offset⟩
        (done { m with stack := rest, memory := m.memory.set l k v })
  | wrote {level : Nat} {offset v : Int} {rest : List Int} : m.stack = v :: rest →
      m.memory.cell level offset = some .output →
      Acts x m ⟨.sto, level, .number offset⟩
        ((m.sink.write v).1.map .refused, { m with stack := rest, sink := (m.sink.write v).2 })
  | jumped {level : Nat} {target : Int} : Acts x m ⟨.jmp, level, .number target⟩ (m.jump target)
  | branched {level : Nat} {target : Int} {rest : List Int} : m.stack = 0 :: rest →
      Acts x m ⟨.jpc, level, .number target⟩ ({ m with stack := rest }.jump target)
  | passed {level : Nat} {offset : Operand} {v : Int} {rest : List Int} : m.stack = v :: rest →
      v ≠ 0 → Acts x m ⟨.jpc, level, offset⟩ (done { m with stack := rest })
  | called {level : Nat} {offset target : Int} {input : List Int} :
      m.Gets level offset target input →
      Acts x m ⟨.cal, level, .number offset⟩
        ({ m with stack := ((x + 1 : Nat) : Int) :: m.stack, input }.jump target)
  | opened {level size : Nat} : size ≤ maxBlockSize →
      Acts x m ⟨.int, level, .number size⟩
        (done { m with memory := ⟨List.replicate size 0 :: m.memory.blocks⟩ })
  | returned {level : Nat} {target : Int} {rest block : List Int} {blocks : List (List Int)} :
      m.memory.blocks = block :: blocks → m.stack = target :: rest →
      Acts x m ⟨.opr, level, .number 0⟩
        ({ m with stack := rest, memory := ⟨blocks⟩ }.jump target)
  | halted {level : Nat} {block : List Int} {blocks : List (List Int)} :
      m.memory.blocks = block :: blocks → m.stack = [] →
      Acts x m ⟨.opr, level, .number 0⟩
        (done { m with stack := [], memory := ⟨blocks⟩, ip := none })

/-! ## Jumps -/

/-- A jump moves the instruction pointer at most. -/
theorem jump_snd (m : Machine) (target : Int) :
    (m.jump target).2 = { m with ip := (m.jump target).2.ip } := by
  unfold jump
  split
  · rfl
  · rfl

@[simp]
theorem jump_stack (m : Machine) (target : Int) : (m.jump target).2.stack = m.stack := by
  rw [jump_snd]

@[simp]
theorem jump_memory (m : Machine) (target : Int) : (m.jump target).2.memory = m.memory := by
  rw [jump_snd]

@[simp]
theorem jump_input (m : Machine) (target : Int) : (m.jump target).2.input = m.input := by
  rw [jump_snd]

@[simp]
theorem jump_sink (m : Machine) (target : Int) : (m.jump target).2.sink = m.sink := by
  rw [jump_snd]

/-- A jump has nothing to do with the sink. -/
theorem jump_ne_refused (m : Machine) (target : Int) (e : SinkFailure) :
    (m.jump target).1 ≠ some (.refused e) := by
  unfold jump
  split
  · nofun
  · nofun

/-! ## Every instruction does one of these

One lemma for each part of the execution, in its order. Which constructor applies is decided by what
is found on the stack and at the address. -/

/-- A value that is fetched has been got, and the input is what is left of it. -/
theorem fetchValue_ok (h : m.fetchValue level offset = .ok (v, m')) :
    ∃ input, m.Gets level offset v input ∧ m' = { m with input } := by
  unfold fetchValue at h
  split at h
  · rename_i hcell
    cases h
    exact ⟨m.input, .slot hcell, rfl⟩
  · rename_i hcell
    split at h
    · cases h
    · rename_i hinput
      cases h
      exact ⟨_, .input hcell hinput, rfl⟩
  · cases h
  · cases h

/-- No fault of fetching is about a code address, and with it a `CAL` goes nowhere. -/
theorem fetchValue_error {f : Fault} (h : m.fetchValue level offset = .error f) :
    (∀ n, f ≠ .codeAddressOutOfRange n) ∧ m.aim? ⟨.cal, level, .number offset⟩ = none := by
  unfold fetchValue at h
  split at h
  · cases h
  · rename_i hcell
    split at h
    · rename_i hinput
      cases h
      exact ⟨nofun, by simp only [aim?, hcell, hinput, List.head?_nil]⟩
    · cases h
  · rename_i hcell
    cases h
    exact ⟨nofun, by simp only [aim?, hcell]⟩
  · rename_i hcell
    cases h
    exact ⟨nofun, by simp only [aim?, hcell]⟩

/-- A `CAL` goes to the value that it gets. -/
theorem Gets.aim? {input : List Int} (h : m.Gets level offset v input) :
    m.aim? ⟨.cal, level, .number offset⟩ = some v := by
  cases h with
  | slot hcell => simp only [Machine.aim?, hcell]
  | input hcell hinput => simp only [Machine.aim?, hcell, hinput, List.head?_cons]

/-- No fault of an operator is about a code address. -/
theorem eval_error {op : Arith} {l r : Int} {f : Fault} (h : op.eval l r = .error f) (n : Int) :
    f ≠ .codeAddressOutOfRange n := by
  have horOverflow {w : Int} (h : Fault.orOverflow w = .error f) :
      f ≠ .codeAddressOutOfRange n := by
    unfold Fault.orOverflow at h
    split at h
    · cases h
    · cases h
      nofun
  cases op with
  | add => exact horOverflow h
  | sub => exact horOverflow h
  | mul => exact horOverflow h
  | div =>
    simp only [Arith.eval] at h
    split at h
    · cases h
      nofun
    · exact horOverflow h

/-- A fault that leaves the operand stack alone: the instruction takes nothing from it, or there was
    nothing. -/
theorem Acts.fail (f : Fault) (ha : m.aim? i = none) (hf : ∀ n, f ≠ .codeAddressOutOfRange n)
    (hp : i.pops = 0 ∨ m.stack = []) : Acts x m i (m.fail f) :=
  .stuck f [] m.stack ha hf rfl (.nothing hp)

/-- The value is gone from the stack even if it cannot be stored. -/
theorem acts_storeValue {rest : List Int} (hs : m.stack = v :: rest) :
    Acts x m ⟨.sto, level, .number offset⟩ ({ m with stack := rest }.storeValue level offset v) := by
  unfold storeValue
  split
  · rename_i hcell
    exact .stored hs hcell
  · rename_i hcell
    have hwrote := Acts.wrote (x := x) hs hcell
    split
    · rename_i hw
      rwa [hw] at hwrote
    · rename_i hw
      rwa [hw] at hwrote
  · exact .stuck _ [v] rest rfl nofun hs .stored
  · exact .stuck _ [v] rest rfl nofun hs .stored

/-- The operands are gone from the stack even if there are too few. -/
theorem acts_applyOperator (op : Operator) :
    Acts x m ⟨.opr, level, .operator op⟩ (m.applyOperator op) := by
  cases op with
  | odd =>
    cases hs : m.stack with
    | nil =>
      simp only [applyOperator, hs]
      exact .fail _ rfl nofun (.inr hs)
    | cons v rest =>
      simp only [applyOperator, hs]
      exact .computed rest .odd hs
  | relation rel =>
    match hs : m.stack with
    | [] =>
      simp only [applyOperator, hs]
      exact .stuck _ [] [] rfl nofun hs (.nothing (.inr rfl))
    | [v] =>
      simp only [applyOperator, hs]
      exact .stuck _ [v] [] rfl nofun hs (.underflow nofun)
    | r :: l :: rest =>
      simp only [applyOperator, hs]
      exact .computed rest .relation hs
  | arith op =>
    match hs : m.stack with
    | [] =>
      simp only [applyOperator, hs]
      exact .stuck _ [] [] rfl nofun hs (.nothing (.inr rfl))
    | [v] =>
      simp only [applyOperator, hs]
      exact .stuck _ [v] [] rfl nofun hs (.underflow nofun)
    | r :: l :: rest =>
      simp only [applyOperator, hs]
      cases hv : op.eval l r with
      | ok v => exact .computed rest (.arith hv) hs
      | error f => exact .stuck f [r, l] rest rfl (eval_error hv) hs (.combined nofun)

/-- The block is left before a return address is looked for. -/
theorem acts_leave : Acts x m ⟨.opr, level, .number 0⟩ m.leave := by
  cases hb : m.memory.blocks with
  | nil =>
    simp only [leave, Memory.exit?, hb]
    exact .fail _ (by simp [aim?, hb]) nofun (.inl rfl)
  | cons block blocks =>
    cases hs : m.stack with
    | nil =>
      simp only [leave, Memory.exit?, hb, hs]
      exact .halted hb hs
    | cons target rest =>
      simp only [leave, Memory.exit?, hb, hs]
      exact .returned hb hs

/-- A block is opened unless its size is negative or too great. -/
theorem acts_int (n : Int) :
    Acts x m ⟨.int, level, .number n⟩ (m.execute x ⟨.int, level, .number n⟩) := by
  simp only [execute]
  by_cases hn : n < 0
  · rw [if_pos hn]
    exact .fail _ rfl nofun (.inl rfl)
  · rw [if_neg hn]
    obtain ⟨size, rfl⟩ := Int.eq_ofNat_of_zero_le (Int.not_lt.1 hn)
    by_cases hsize : size ≤ maxBlockSize
    · simp only [Memory.enter?, Int.toNat_natCast, if_pos hsize]
      exact .opened hsize
    · simp only [Memory.enter?, Int.toNat_natCast, if_neg hsize]
      exact .fail _ rfl nofun (.inl rfl)

/-- A conditional jump looks at its operand for a zero only. -/
theorem acts_jpc (offset : Operand) :
    Acts x m ⟨.jpc, level, offset⟩ (m.execute x ⟨.jpc, level, offset⟩) := by
  cases hs : m.stack with
  | nil =>
    cases offset with
    | number n =>
      simp only [execute, hs]
      exact .fail _ (by simp [aim?, hs]) nofun (.inr hs)
    | operator o =>
      simp only [execute, hs]
      exact .fail _ rfl nofun (.inr hs)
  | cons v rest =>
    by_cases hv : v = 0
    · cases offset with
      | number n =>
        simp only [execute, hs, if_pos hv]
        exact .branched (hv ▸ hs)
      | operator o =>
        simp only [execute, hs, if_pos hv]
        exact .stuck _ [v] rest rfl nofun hs .tested
    · cases offset with
      | number n | operator o =>
        simp only [execute, hs, if_neg hv]
        exact .passed hs hv

/-- Instructions with a number as their operand. -/
theorem acts_number (m : Machine) (x : Nat) (op : OpCode) (level : Nat) (n : Int) :
    Acts x m ⟨op, level, .number n⟩ (m.execute x ⟨op, level, .number n⟩) := by
  cases op with
  | lit => exact .computed m.stack .literal rfl
  | lod =>
    simp only [execute]
    cases hv : m.fetchValue level n with
    | ok vm =>
      obtain ⟨v, m₁⟩ := vm
      obtain ⟨input, hget, rfl⟩ := fetchValue_ok hv
      exact .loaded hget
    | error f => exact .fail f rfl (fetchValue_error hv).1 (.inl rfl)
  | sto =>
    cases hs : m.stack with
    | nil =>
      simp only [execute, hs]
      exact .fail _ rfl nofun (.inr hs)
    | cons v rest =>
      simp only [execute, hs]
      exact acts_storeValue hs
  | cal =>
    simp only [execute]
    cases hv : m.fetchValue level n with
    | ok vm =>
      obtain ⟨v, m₁⟩ := vm
      obtain ⟨input, hget, rfl⟩ := fetchValue_ok hv
      exact .called hget
    | error f => exact .fail f (fetchValue_error hv).2 (fetchValue_error hv).1 (.inl rfl)
  | int => exact acts_int n
  | jmp => exact .jumped
  | jpc => exact acts_jpc (.number n)
  | opr =>
    simp only [execute]
    by_cases hn : n = 0
    · rw [if_pos hn, hn]
      exact acts_leave
    · rw [if_neg hn]
      exact .fail _ (by simp [aim?, hn]) nofun (.inl rfl)

/-- Only `OPR`, and in front of its check of the operand `STO` and `JPC`, do anything with an
    operator. -/
theorem acts_operator (m : Machine) (x : Nat) (op : OpCode) (level : Nat) (o : Operator) :
    Acts x m ⟨op, level, .operator o⟩ (m.execute x ⟨op, level, .operator o⟩) := by
  cases op with
  | opr => exact acts_applyOperator o
  | sto =>
    cases hs : m.stack with
    | nil =>
      simp only [execute, hs]
      exact .fail _ rfl nofun (.inr hs)
    | cons v rest =>
      simp only [execute, hs]
      exact .stuck _ [v] rest rfl nofun hs .stored
  | jpc => exact acts_jpc (.operator o)
  | lit | lod | cal | int | jmp => exact .fail _ rfl nofun (.inl rfl)

/-- **Whatever the code**, an instruction does one of the things listed. -/
theorem acts_execute (m : Machine) (x : Nat) (i : Instruction) : Acts x m i (m.execute x i) := by
  obtain ⟨op, level, n | o⟩ := i
  · exact acts_number m x op level n
  · exact acts_operator m x op level o

/-! ## Steps that write -/

/-- The next instruction is a `STO` to the output channel, with `v` on top of the stack. -/
def Writes (m : Machine) (v : Int) : Prop :=
  ∃ (x level : Nat) (offset : Int) (rest : List Int),
    m.fetch? = some (x, ⟨.sto, level, .number offset⟩) ∧ m.stack = v :: rest ∧
      m.memory.cell level offset = some .output

/-- A step that writes leaves the input alone and gives the value to the sink; it goes on unless the
    sink refuses the value. -/
theorem Writes.step (h : m.Writes v) :
    m.step.1 = (m.sink.write v).1.elim .running .refused ∧
      m.step.2.input = m.input ∧ m.step.2.sink = (m.sink.write v).2 := by
  obtain ⟨x, level, offset, rest, hfetch, hs, hcell⟩ := h
  obtain ⟨hip, hi⟩ := fetch?_eq_some_iff.1 hfetch
  rw [step_fetched hip hi]
  have hexecute : (m.advanced x).execute x ⟨.sto, level, .number offset⟩ =
      ((m.sink.write v).1.map .refused,
        { m.advanced x with stack := rest, sink := (m.sink.write v).2 }) := by
    simp only [execute, storeValue, advanced, hs, hcell]
    rcases m.sink.write v with ⟨_ | e, sink⟩ <;> rfl
  rw [hexecute]
  cases (m.sink.write v).1 <;> exact ⟨rfl, rfl, rfl⟩

/-- The value written is on the stack. -/
theorem Writes.mem_stack (h : m.Writes v) : v ∈ m.stack := by
  obtain ⟨x, level, offset, rest, -, hs, -⟩ := h
  rw [hs]
  exact List.mem_cons_self

/-- A step is refused only if its instruction is. -/
theorem conclude_ne_refused {r : Option Interruption × Machine}
    (h : ∀ e, r.1 ≠ some (.refused e)) (e : SinkFailure) : (conclude x r).1 ≠ .refused e := by
  obtain ⟨end?, m'⟩ := r
  match end? with
  | none =>
    show (if m'.isHalted then _ else _) ≠ _
    split
    · nofun
    · nofun
  | some (.fault _) => nofun
  | some (.refused e') => exact absurd rfl (h e')

/-- Only an instruction that writes uses the sink, or can be refused. -/
theorem Acts.sink {r : Option Interruption × Machine} (h : Acts x m i r) :
    (∃ level offset v rest, i = ⟨.sto, level, .number offset⟩ ∧ m.stack = v :: rest ∧
      m.memory.cell level offset = some .output) ∨
    r.2.sink = m.sink ∧ ∀ e, r.1 ≠ some (.refused e) := by
  cases h with
  | stuck _ _ _ _ _ _ _ => exact .inr ⟨rfl, nofun⟩
  | computed _ _ _ => exact .inr ⟨rfl, nofun⟩
  | loaded _ => exact .inr ⟨rfl, nofun⟩
  | stored _ _ => exact .inr ⟨rfl, nofun⟩
  | wrote hs hcell => exact .inl ⟨_, _, _, _, rfl, hs, hcell⟩
  | jumped => exact .inr ⟨jump_sink .., jump_ne_refused _ _⟩
  | branched _ => exact .inr ⟨jump_sink .., jump_ne_refused _ _⟩
  | passed _ _ => exact .inr ⟨rfl, nofun⟩
  | called _ => exact .inr ⟨jump_sink .., jump_ne_refused _ _⟩
  | opened _ => exact .inr ⟨rfl, nofun⟩
  | returned _ _ => exact .inr ⟨jump_sink .., jump_ne_refused _ _⟩
  | halted _ _ => exact .inr ⟨rfl, nofun⟩

/-- Only a step that writes uses the sink, or can be refused. -/
theorem step_sink (m : Machine) : (∃ v, m.Writes v) ∨
    m.step.2.sink = m.sink ∧ ∀ e, m.step.1 ≠ .refused e := by
  cases hip : m.ip with
  | none =>
    rw [step_halted hip]
    exact .inr ⟨rfl, nofun⟩
  | some x =>
    cases hi : m.code[x]? with
    | none =>
      rw [step_outside hip hi]
      exact .inr ⟨rfl, nofun⟩
    | some i =>
      rw [step_fetched hip hi, conclude_snd]
      rcases (acts_execute (m.advanced x) x i).sink with
        ⟨level, offset, v, rest, rfl, hs, hcell⟩ | ⟨hsink, hrefused⟩
      · exact .inl ⟨v, x, level, offset, rest, fetch?_eq_some_iff.2 ⟨hip, hi⟩, hs, hcell⟩
      · exact .inr ⟨hsink, conclude_ne_refused hrefused⟩

end Machine

end PL0
