import PL0.Proofs.Machine.Stepping

/-!
# `Machine.Faults` — what a faulting step leaves behind

A machine may be stepped on after a fault, so it matters what the step has done before it found that
it could not go on. `Machine.Leaves` says so, part by part. An instruction finds it out when it has
popped its operands and before it does anything else, with two exceptions, both of which send
control below the code: by then a `CAL` has found its target and pushed its return address
(`Machine.CallsBelow`), and `OPR 0` has left its block (`Machine.ReturnsBelow`).

Main statement: `Machine.fault_leaves`, for every machine and whatever code it runs.
-/

namespace PL0.Machine

variable {m : Machine} {x a : Nat} {i : Instruction} {f : Fault}
  {r : Option Interruption × Machine}

/-! ## The parts of a machine behind a fault -/

/-- A `CAL` that has found its target, which is negative. -/
def CallsBelow (m : Machine) (i : Instruction) : Prop :=
  i.op = .cal ∧ ∃ target < 0, m.aim? i = some target

/-- An `OPR 0` that has left its block and popped its return address, which is negative. -/
def ReturnsBelow (m : Machine) (i : Instruction) : Prop :=
  i.op = .opr ∧ i.offset = .number 0 ∧ ∃ target < 0, m.aim? i = some target

/-- The instruction addresses the input channel. -/
def ReadsInput (m : Machine) (i : Instruction) : Prop :=
  ∃ n, i.offset = .number n ∧ m.memory.cell i.level n = some .input

/-- What a step that faults at the instruction `i`, fetched at `x`, leaves of the machine `m`. -/
structure Leaves (x : Nat) (i : Instruction) (m m' : Machine) : Prop where
  code : m'.code = m.code
  pointer : m'.ip = some (x + 1)
  output : m'.sink = m.sink
  /-- Operands are gone from the top of the stack only, at most two; -/
  stack : ¬ m.CallsBelow i → ¬ m.ReturnsBelow i →
    ∃ popped, m.stack = popped ++ m'.stack ∧ Loses i popped m'.stack
  /-- a return to a negative address has popped this address, -/
  popped : m.ReturnsBelow i → ∃ target < 0, m.stack = target :: m'.stack
  /-- and a call with a negative target has pushed its return address. -/
  pushed : m.CallsBelow i → m'.stack = ((x + 1 : Nat) : Int) :: m.stack
  /-- The blocks are the same ones, with the same slots; -/
  memory : ¬ m.ReturnsBelow i → m'.memory = m.memory
  /-- a return to a negative address has lost the innermost one. -/
  left : m.ReturnsBelow i → ∃ block, m.memory.blocks = block :: m'.memory.blocks
  /-- No input has been taken, -/
  input : ¬ (m.CallsBelow i ∧ m.ReadsInput i) → m'.input = m.input
  /-- except for the negative target of a call. -/
  taken : m.CallsBelow i → m.ReadsInput i → ∃ target < 0, m.input = target :: m'.input

/-! ## Every fault -/

theorem not_callsBelow_of_op (h : i.op ≠ .cal) : ¬ m.CallsBelow i := fun hc => h hc.1

theorem not_returnsBelow_of_op (h : i.op ≠ .opr) : ¬ m.ReturnsBelow i := fun hr => h hr.1

/-- An instruction that neither calls nor returns below the code has at most popped operands. -/
theorem Leaves.of_popped {popped rest : List Int} (hc : ¬ m.CallsBelow i)
    (hr : ¬ m.ReturnsBelow i) (hs : m.stack = popped ++ rest) (hl : Loses i popped rest) :
    Leaves x i m { m.advanced x with stack := rest } where
  code := rfl
  pointer := rfl
  output := rfl
  stack _ _ := ⟨popped, hs, hl⟩
  popped h := absurd h hr
  pushed h := absurd h hc
  memory _ := rfl
  left h := absurd h hr
  input _ := rfl
  taken h := absurd h hc

theorem jump_fault {target : Int} (h : (m.jump target).1 = some (.fault f)) :
    target < 0 ∧ (m.jump target).2 = m := by
  unfold jump at h ⊢
  by_cases hneg : target < 0
  · rw [if_pos hneg]
    exact ⟨hneg, rfl⟩
  · rw [if_neg hneg] at h
    cases h

/-- A call whose target is negative has taken it from wherever it was and pushed the return
    address. -/
theorem Gets.leaves {level : Nat} {offset target : Int} {input : List Int}
    (hget : (m.advanced x).Gets level offset target input) (hneg : target < 0) :
    Leaves x ⟨.cal, level, .number offset⟩ m
      { m.advanced x with stack := ((x + 1 : Nat) : Int) :: m.stack, input } := by
  have hcalls : m.CallsBelow ⟨.cal, level, .number offset⟩ := ⟨rfl, target, hneg, hget.aim?⟩
  have hreturns : ¬ m.ReturnsBelow ⟨.cal, level, .number offset⟩ :=
    not_returnsBelow_of_op nofun
  refine ⟨rfl, rfl, rfl, fun h => absurd hcalls h, fun h => absurd h hreturns, fun _ => rfl,
    fun _ => rfl, fun h => absurd h hreturns, ?_, ?_⟩
  · intro hinput
    cases hget with
    | slot _ => rfl
    | input hcell _ => exact absurd ⟨hcalls, offset, rfl, hcell⟩ hinput
  · rintro - ⟨n, hn, hcell⟩
    cases hn
    cases hget with
    | slot hslot => cases hslot.symm.trans hcell
    | input _ hinput => exact ⟨target, hneg, hinput⟩

/-- A return to a negative address has lost this address and the block. -/
theorem leaves_of_return {level : Nat} {target : Int} {rest block : List Int}
    {blocks : List (List Int)} (hb : m.memory.blocks = block :: blocks)
    (hs : m.stack = target :: rest) (hneg : target < 0) :
    Leaves x ⟨.opr, level, .number 0⟩ m
      { m.advanced x with stack := rest, memory := ⟨blocks⟩ } := by
  have haim : m.aim? ⟨.opr, level, .number 0⟩ = some target := by
    refine (if_pos ⟨rfl, ?_⟩).trans (congrArg List.head? hs)
    rw [hb]
    nofun
  have hreturns : m.ReturnsBelow ⟨.opr, level, .number 0⟩ := ⟨rfl, rfl, target, hneg, haim⟩
  have hcalls : ¬ m.CallsBelow ⟨.opr, level, .number 0⟩ := not_callsBelow_of_op nofun
  exact ⟨rfl, rfl, rfl, fun _ h => absurd hreturns h, fun _ => ⟨target, hneg, hs⟩,
    fun h => absurd h hcalls, fun h => absurd hreturns h, fun _ => ⟨block, hb⟩, fun _ => rfl,
    fun h => absurd h hcalls⟩

/-- **Whatever an instruction does that ends in a fault**, it leaves this. -/
theorem Acts.leaves (h : Acts x (m.advanced x) i r) (hf : r.1 = some (.fault f)) :
    Leaves x i m r.2 := by
  cases h with
  | stuck _ popped rest haim _ hs hl =>
    refine .of_popped ?_ ?_ hs hl
    · rintro ⟨-, target, -, htarget⟩
      cases haim.symm.trans htarget
    · rintro ⟨-, -, target, -, htarget⟩
      cases haim.symm.trans htarget
  | computed _ _ _ => cases hf
  | loaded _ => cases hf
  | stored _ _ => cases hf
  | @wrote _ _ v _ _ _ =>
    -- A sink refuses; it does not fault.
    obtain ⟨e, he, hcontra⟩ := Option.map_eq_some_iff.1 hf
    cases hcontra
  | jumped =>
    rw [(jump_fault hf).2]
    exact .of_popped (not_callsBelow_of_op nofun) (not_returnsBelow_of_op nofun)
      (List.nil_append _).symm (.nothing (.inl rfl))
  | @branched _ _ rest hs =>
    rw [(jump_fault hf).2]
    exact .of_popped (not_callsBelow_of_op nofun) (not_returnsBelow_of_op nofun)
      (show m.stack = [0] ++ rest from hs) .tested
  | passed _ _ => cases hf
  | called hget =>
    obtain ⟨hneg, hsame⟩ := jump_fault hf
    rw [hsame]
    exact hget.leaves hneg
  | opened _ => cases hf
  | returned hb hs =>
    obtain ⟨hneg, hsame⟩ := jump_fault hf
    rw [hsame]
    exact leaves_of_return hb hs hneg
  | halted _ _ => cases hf

theorem conclude_fault (h : (conclude x r).1 = .fault a f) : a = x ∧ r.1 = some (.fault f) := by
  obtain ⟨e, m'⟩ := r
  match e with
  | none =>
    simp only [conclude] at h
    split at h <;> cases h
  | some (.fault _) =>
    cases h
    exact ⟨rfl, rfl⟩
  | some (.refused _) => cases h

/-- **What a fault leaves**, whatever the machine and its code. A step that faults reports the
    address of its instruction. If there is none, nothing has changed; if there is one, the machine
    has lost at most operands from the top of its stack, except for calls and returns to negative
    addresses. -/
theorem fault_leaves (h : m.step.1 = .fault a f) :
    m.ip = some a ∧ (m.code[a]? = none → m.step.2 = m) ∧
      ∀ i, m.code[a]? = some i → Leaves a i m m.step.2 := by
  cases hip : m.ip with
  | none =>
    rw [step_halted hip] at h
    cases h
  | some x =>
    cases hi : m.code[x]? with
    | none =>
      rw [step_outside hip hi] at h ⊢
      cases h
      refine ⟨rfl, fun _ => rfl, ?_⟩
      intro i hi'
      cases hi.symm.trans hi'
    | some i =>
      rw [step_fetched hip hi] at h ⊢
      obtain ⟨rfl, hf⟩ := conclude_fault h
      rw [conclude_snd]
      refine ⟨rfl, ?_, ?_⟩
      · intro hi'
        cases hi.symm.trans hi'
      · intro i' hi'
        cases hi.symm.trans hi'
        exact (acts_execute (m.advanced a) a i).leaves hf

/-- A call takes the target `-3` from the input. It has pushed its return address when it faults, and
    the target is gone. -/
theorem call_below_leaves :
    let m := load #[.make .cal 0 0] [-3, 5] .unlimited
    m.step.1 = .fault 0 (.codeAddressOutOfRange (-3)) ∧
      Leaves 0 (.make .cal 0 0) m m.step.2 ∧ m.CallsBelow (.make .cal 0 0) ∧
      m.step.2.stack = [1] ∧ m.step.2.input = [5] := by
  have h : (load #[.make .cal 0 0] [-3, 5] .unlimited).step.1 =
      .fault 0 (.codeAddressOutOfRange (-3)) := by decide
  exact ⟨h, (fault_leaves h).2.2 _ rfl, ⟨rfl, -3, by decide, rfl⟩, by decide, by decide⟩

end PL0.Machine
