import PL0.Proofs.Machine.Stepping

/-!
# `Machine.Ports` — a machine between other ports

`Machine.mapPorts` puts other ports onto a machine. Code, operands and memory decide what a step
does, and a port only where the instruction uses it. So a step commutes with the exchange wherever
the two ports behave alike in the one use that the instruction makes of them.

Main statement: `Machine.step_mapPorts`, with `Machine.Faithful` for that one use.
-/

namespace PL0

namespace Machine

variable {m : Machine} {f : List Int → List Int} {g : Sink → Sink}

/-- The same machine between other ports. -/
def mapPorts (f : List Int → List Int) (g : Sink → Sink) (m : Machine) : Machine :=
  { m with input := f m.input, sink := g m.sink }

/-- Nothing but the ports is exchanged. -/
@[simp]
theorem mapPorts_code : (m.mapPorts f g).code = m.code := rfl

@[simp]
theorem mapPorts_ip : (m.mapPorts f g).ip = m.ip := rfl

@[simp]
theorem mapPorts_stack : (m.mapPorts f g).stack = m.stack := rfl

@[simp]
theorem mapPorts_memory : (m.mapPorts f g).memory = m.memory := rfl

@[simp]
theorem mapPorts_input : (m.mapPorts f g).input = f m.input := rfl

@[simp]
theorem mapPorts_sink : (m.mapPorts f g).sink = g m.sink := rfl

/-- An instruction's end between other ports. -/
def mapEnd (f : List Int → List Int) (g : Sink → Sink) (r : Option Interruption × Machine) :
    Option Interruption × Machine :=
  (r.1, r.2.mapPorts f g)

variable (f g) in
/-- The other ports behave like those of the machine in what the instruction asks of them: to give a
    value where it gets one from the input, and to take one where it stores to the output. -/
structure Faithful (m : Machine) (i : Instruction) : Prop where
  front (v : Int) (vs : List Int) : f (v :: vs) = v :: f vs
  exhausted {n : Int} : i.op = .lod ∨ i.op = .cal → i.offset = .number n →
    m.memory.cell i.level n = some .input → m.input = [] → f [] = []
  taken {n v : Int} {rest : List Int} : i.op = .sto → i.offset = .number n →
    m.memory.cell i.level n = some .output → m.stack = v :: rest →
    (g m.sink).write v = ((m.sink.write v).1, g (m.sink.write v).2)

/-! ## What uses a port

Only the two accesses to memory reach the ports, and only if the cell that they address is one. Each
asks of the exchange what it needs at this cell and nothing else. -/

/-- A fetch from the input takes its first value, or finds it exhausted; the other input has to
    agree on which. -/
theorem fetchValue_mapPorts {level : Nat} {offset : Int} (hf : ∀ v vs, f (v :: vs) = v :: f vs)
    (h : m.memory.cell level offset = some .input → m.input = [] → f [] = []) :
    (m.mapPorts f g).fetchValue level offset =
      (m.fetchValue level offset).map fun (v, m') => (v, m'.mapPorts f g) := by
  simp only [fetchValue, mapPorts_memory, mapPorts_input]
  cases hcell : m.memory.cell level offset with
  | none => rfl
  | some c =>
    cases c with
    | slot _ _ _ => rfl
    | output => rfl
    | input =>
      cases hinput : m.input with
      | nil =>
        rw [h hcell hinput]
        rfl
      | cons v vs =>
        rw [hf]
        rfl

/-- A store to the output succeeds or fails with the other sink as it does with the sink of the
    machine. -/
theorem storeValue_mapPorts {level : Nat} {offset v : Int}
    (h : m.memory.cell level offset = some .output →
      (g m.sink).write v = ((m.sink.write v).1, g (m.sink.write v).2)) :
    (m.mapPorts f g).storeValue level offset v = mapEnd f g (m.storeValue level offset v) := by
  simp only [storeValue, mapPorts_memory, mapPorts_sink]
  cases hcell : m.memory.cell level offset with
  | none => rfl
  | some c =>
    cases c with
    | slot _ _ _ => rfl
    | input => rfl
    | output =>
      -- What is left of the machine in either case does not depend on the sink.
      rw [h hcell]
      obtain ⟨e, sink⟩ := m.sink.write v
      cases e <;> rfl

/-! ## What uses none

Everything else reads code, stack and memory, which are the same. A jump in particular looks at its
target only. -/

/-- A jump out of range fails between any ports. -/
theorem jump_mapPorts (m : Machine) (target : Int) :
    (m.mapPorts f g).jump target = mapEnd f g (m.jump target) := by
  unfold jump
  by_cases h : target < 0
  · rw [if_pos h, if_pos h]
    rfl
  · rw [if_neg h, if_neg h]
    rfl

/-- Operators fail for lack of operands and for their values. -/
theorem applyOperator_mapPorts (m : Machine) (op : Operator) :
    (m.mapPorts f g).applyOperator op = mapEnd f g (m.applyOperator op) := by
  cases op with
  | odd =>
    simp only [applyOperator, mapPorts_stack]
    cases m.stack <;> rfl
  | relation rel =>
    simp only [applyOperator, mapPorts_stack]
    rcases m.stack with _ | ⟨r, _ | ⟨l, rest⟩⟩ <;> rfl
  | arith op =>
    simp only [applyOperator, mapPorts_stack]
    rcases m.stack with _ | ⟨r, _ | ⟨l, rest⟩⟩
    · rfl
    · rfl
    · dsimp only
      cases op.eval l r <;> rfl

/-- Leaving a block fails without a block or without a return address. -/
theorem leave_mapPorts (m : Machine) : (m.mapPorts f g).leave = mapEnd f g m.leave := by
  simp only [leave, mapPorts_memory, mapPorts_stack]
  cases m.memory.exit? with
  | none => rfl
  | some memory =>
    cases m.stack with
    | nil => rfl
    | cons target rest => exact jump_mapPorts { m with memory, stack := rest } target

/-! ## Instructions and steps

An instruction is one of the above with operands taken first; a step is an instruction that has been
fetched. A machine that has halted, or whose next address is outside of the code, does not come to
execute anything. -/

/-- An instruction does the same between ports that behave alike in its use of them. -/
theorem execute_mapPorts {x : Nat} {i : Instruction} (h : Faithful f g m i) :
    (m.mapPorts f g).execute x i = mapEnd f g (m.execute x i) := by
  -- With a number, a `LOD`, `CAL` or `STO` may use a port. With an operator none does.
  obtain ⟨op, level, n | o⟩ := i
  · cases op with
    | lit => rfl
    | lod =>
      simp only [execute, fetchValue_mapPorts h.front (h.exhausted (.inl rfl) rfl)]
      cases m.fetchValue level n <;> rfl
    | sto =>
      simp only [execute, mapPorts_stack]
      cases hs : m.stack with
      | nil => rfl
      | cons v rest =>
        exact storeValue_mapPorts (m := { m with stack := rest }) fun hcell =>
          h.taken rfl rfl hcell hs
    | cal =>
      simp only [execute, fetchValue_mapPorts h.front (h.exhausted (.inr rfl) rfl)]
      cases m.fetchValue level n with
      | ok vm => exact jump_mapPorts (vm.2.push (x + 1)) vm.1
      | error f => rfl
    | int =>
      simp only [execute, mapPorts_memory]
      by_cases hn : n < 0
      · rw [if_pos hn, if_pos hn]
        rfl
      · rw [if_neg hn, if_neg hn]
        cases m.memory.enter? n.toNat <;> rfl
    | jmp => exact jump_mapPorts m n
    | jpc =>
      simp only [execute, mapPorts_stack]
      cases m.stack with
      | nil => rfl
      | cons v rest =>
        by_cases hv : v = 0
        · simp only [if_pos hv]
          exact jump_mapPorts { m with stack := rest } n
        · simp only [if_neg hv]
          rfl
    | opr =>
      simp only [execute]
      by_cases hn : n = 0
      · rw [if_pos hn, if_pos hn]
        exact leave_mapPorts m
      · rw [if_neg hn, if_neg hn]
        rfl
  · cases op with
    | opr => exact applyOperator_mapPorts m o
    | sto =>
      simp only [execute, mapPorts_stack]
      cases m.stack <;> rfl
    | jpc =>
      simp only [execute, mapPorts_stack]
      cases m.stack with
      | nil => rfl
      | cons v rest =>
        by_cases hv : v = 0
        · simp only [if_pos hv]
          rfl
        · simp only [if_neg hv]
          rfl
    | lit => rfl
    | lod => rfl
    | cal => rfl
    | int => rfl
    | jmp => rfl

/-- How an instruction ends is the same, so the step ends the same way. -/
theorem conclude_mapEnd (x : Nat) (r : Option Interruption × Machine) :
    conclude x (mapEnd f g r) = ((conclude x r).1, (conclude x r).2.mapPorts f g) := by
  obtain ⟨e, m⟩ := r
  match e with
  | none => rfl
  | some (.fault _) => rfl
  | some (.refused _) => rfl

/-- A step answers the same between the other ports, and leaves the same machine between them. -/
theorem step_mapPorts
    (h : ∀ x i, m.ip = some x → m.code[x]? = some i → Faithful f g (m.advanced x) i) :
    (m.mapPorts f g).step = (m.step.1, m.step.2.mapPorts f g) := by
  cases hip : m.ip with
  | none => rw [step_halted hip, step_halted (m := m.mapPorts f g) hip]
  | some x =>
    cases hi : m.code[x]? with
    | none => rw [step_outside hip hi, step_outside (m := m.mapPorts f g) hip hi]
    | some i =>
      rw [step_fetched hip hi, step_fetched (m := m.mapPorts f g) hip hi, ← conclude_mapEnd,
        ← execute_mapPorts (h x i hip hi)]
      rfl

end Machine

end PL0
