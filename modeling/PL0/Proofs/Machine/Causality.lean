import PL0.Proofs.Machine.Ports

/-!
# `Machine.Causality` — what a machine takes from its input and when

A machine that has not asked for more input than there was cannot know whether more would have come.
`Machine.more` puts values behind the input that is left; unless a step faults for want of input it
commutes with `more` (`Machine.step_more`), and so do any number of steps. `Machine.Uses` bounds
what lies between two machines of one run at the ports: values leave the input at its front, values
written are appended.

Main statement: `Machine.causal`, for arbitrary code, past faults of every other kind.
-/

namespace PL0

/-- Whether the step asked for input and there was none. -/
def Outcome.exhausted : Outcome → Bool
  | .fault _ .inputExhausted => true
  | _ => false

namespace Machine

variable {m m' m'' : Machine} {ys : List Int}

/-! ## More input behind the input that is left -/

/-- The same machine with the values `ys` behind its input. -/
def more (ys : List Int) (m : Machine) : Machine := { m with input := m.input ++ ys }

/-- An instruction that gets a value from an input that has none faults for want of it. -/
theorem execute_exhausted {x : Nat} {i : Instruction} {n : Int} (hop : i.op = .lod ∨ i.op = .cal)
    (hoff : i.offset = .number n) (hcell : m.memory.cell i.level n = some .input)
    (hinput : m.input = []) : m.execute x i = m.fail .inputExhausted := by
  obtain ⟨op, level, offset⟩ := i
  obtain rfl : offset = .number n := hoff
  have hfetch : m.fetchValue level n = .error .inputExhausted := by
    simp only [fetchValue, hcell, hinput]
  rcases hop with rfl | rfl
  · simp only [execute, hfetch]
  · simp only [execute, hfetch]

/-- A step answers the same with more input and leaves the same machine with that much more input,
    unless it faults for want of input. -/
theorem step_more (h : m.step.1.exhausted = false) :
    (m.more ys).step = (m.step.1, m.step.2.more ys) := by
  refine step_mapPorts (f := (· ++ ys)) (g := id) fun x i hip hi =>
    ⟨fun _ _ => rfl, ?_, fun _ _ _ _ => rfl⟩
  intro n hop hoff hcell hinput
  rw [step_fetched hip hi, execute_exhausted hop hoff hcell hinput] at h
  cases h

/-- A run that never faults for want of input is the same run with more input. -/
theorem after_more {n : Nat} (h : ∀ k < n, (m.answer k).exhausted = false) :
    (∀ k < n, (m.more ys).answer k = m.answer k) ∧
      ∀ k ≤ n, (m.more ys).after k = (m.after k).more ys := by
  have hafter (k : Nat) : k ≤ n → (m.more ys).after k = (m.after k).more ys := by
    induction k with
    | zero => exact fun _ => rfl
    | succ k ih =>
      intro hk
      rw [after_succ, after_succ, ih (by omega), step_more (h k hk)]
  refine ⟨?_, hafter⟩
  intro k hk
  unfold answer
  rw [hafter k (by omega), step_more (h k hk)]

/-! ## What passes the ports -/

/-- Between two machines of one run at most `n` values have been taken, from the front of the input
    in order, and at most `n` written, behind those written before. -/
structure Uses (n : Nat) (m m' : Machine) : Prop where
  taken : ∃ vs, m.input = vs ++ m'.input ∧ vs.length ≤ n
  written : ∃ vs, m'.sink.written.toList = m.sink.written.toList ++ vs ∧ vs.length ≤ n

/-- Nothing passes if the input and the sink stay as they are. -/
theorem Uses.of_eq {n : Nat} (hinput : m'.input = m.input) (hsink : m'.sink = m.sink) :
    Uses n m m' :=
  ⟨⟨[], hinput.symm, Nat.zero_le n⟩, ⟨[], by rw [hsink, List.append_nil], Nat.zero_le n⟩⟩

/-- What passes in two parts of a run adds up. -/
theorem Uses.trans {j k : Nat} (h : Uses j m m') (h' : Uses k m' m'') : Uses (j + k) m m'' := by
  obtain ⟨⟨vs, hvs, hj⟩, ⟨ws, hws, hj'⟩⟩ := h
  obtain ⟨⟨us, hus, hk⟩, ⟨zs, hzs, hk'⟩⟩ := h'
  constructor
  · refine ⟨vs ++ us, ?_, ?_⟩
    · rw [hvs, hus, List.append_assoc]
    · rw [List.length_append]
      omega
  · refine ⟨ws ++ zs, ?_, ?_⟩
    · rw [hzs, hws, List.append_assoc]
    · rw [List.length_append]
      omega

/-- What is got from the input channel is the first value of the input. -/
theorem Gets.taken {level : Nat} {offset v : Int} {input : List Int}
    (h : m.Gets level offset v input) : ∃ vs, m.input = vs ++ input ∧ vs.length ≤ 1 := by
  cases h with
  | slot _ => exact ⟨[], rfl, Nat.zero_le 1⟩
  | input _ hinput => exact ⟨[v], hinput, Nat.le_refl 1⟩

/-- A write appends its value or nothing. -/
theorem appended_write (s : Sink) (v : Int) :
    ∃ vs, (s.write v).2.written.toList = s.written.toList ++ vs ∧ vs.length ≤ 1 := by
  rcases s.written_write v with h | h
  · exact ⟨[], by rw [h, List.append_nil], Nat.zero_le 1⟩
  · exact ⟨[v], by rw [h, Array.toList_push], Nat.le_refl 1⟩

/-- No instruction takes or writes two values. -/
theorem Acts.uses {x : Nat} {i : Instruction} {r : Option Interruption × Machine}
    (h : Acts x m i r) : Uses 1 m r.2 := by
  cases h with
  | stuck _ _ _ _ _ _ _ => exact .of_eq rfl rfl
  | computed _ _ _ => exact .of_eq rfl rfl
  | loaded hget => exact ⟨hget.taken, [], (List.append_nil _).symm, Nat.zero_le 1⟩
  | stored _ _ => exact .of_eq rfl rfl
  | wrote _ _ => exact ⟨⟨[], rfl, Nat.zero_le 1⟩, appended_write _ _⟩
  | jumped => exact .of_eq (jump_input ..) (jump_sink ..)
  | branched _ => exact .of_eq (jump_input ..) (jump_sink ..)
  | passed _ _ => exact .of_eq rfl rfl
  | called hget =>
    -- The address called may be an input value, and stays taken if it lies outside the code.
    refine ⟨?_, ?_⟩
    · rw [jump_input]
      exact hget.taken
    · rw [jump_sink]
      exact ⟨[], (List.append_nil _).symm, Nat.zero_le 1⟩
  | opened _ => exact .of_eq rfl rfl
  | returned _ _ => exact .of_eq (jump_input ..) (jump_sink ..)
  | halted _ _ => exact .of_eq rfl rfl

/-- A step executes one instruction at most. -/
theorem step_uses (m : Machine) : Uses 1 m m.step.2 := by
  cases hip : m.ip with
  | none =>
    rw [step_halted hip]
    exact .of_eq rfl rfl
  | some x =>
    cases hi : m.code[x]? with
    | none =>
      rw [step_outside hip hi]
      exact .of_eq rfl rfl
    | some i =>
      rw [step_fetched hip hi, conclude_snd]
      have huses := (acts_execute (m.advanced x) x i).uses
      exact ⟨huses.taken, huses.written⟩

/-- By induction on the steps in between. -/
theorem after_uses (m : Machine) {j k : Nat} (h : j ≤ k) :
    Uses (k - j) (m.after j) (m.after k) := by
  induction h with
  | refl => exact .of_eq rfl rfl
  | @step k hjk ih =>
    have huses := ih.trans (step_uses (m.after k))
    rwa [← after_succ, ← Nat.sub_add_comm hjk] at huses

/-- **Input is consumed causally**, whatever the code. If none of the first `n` steps on the input
    `xs` faults for want of input, then on `xs ++ ys` they give the same answers and leave, one after
    the other, the same machines with `ys` behind what they have not read of `xs`. And on any input,
    between the machines of a run values are taken from the front of the input, in order, and written
    behind those written before, at most one of each in a step. -/
theorem causal (code : Array Instruction) (xs : List Int) (sink : Sink) :
    (∀ (ys : List Int) (n : Nat),
      (∀ k < n, ((load code xs sink).answer k).exhausted = false) →
        (∀ k < n, (load code (xs ++ ys) sink).answer k = (load code xs sink).answer k) ∧
        ∀ k ≤ n, (load code (xs ++ ys) sink).after k = ((load code xs sink).after k).more ys) ∧
    ∀ j k, j ≤ k → Uses (k - j) ((load code xs sink).after j) ((load code xs sink).after k) := by
  refine ⟨?_, ?_⟩
  · intro ys n h
    exact after_more h
  · intro j k h
    exact after_uses _ h

/-- Passes one value on, after a fault, and asks for another. -/
def relay : Array Instruction :=
  #[.make .sto 0 0, .make .lod 0 0, .make .sto 0 1, .make .lod 0 0]

/-- `relay` has read all of its input after three steps, and faults in the fourth for want of
    more. -/
theorem relay_causal :
    (∀ k < 3, ((load relay [5] .unlimited).answer k).exhausted = false) ∧
      (load relay [5] .unlimited).answer 0 = .fault 0 .stackUnderflow ∧
      ((load relay [5] .unlimited).answer 3).exhausted = true ∧
      (load relay ([5] ++ [7]) .unlimited).after 3 =
        ((load relay [5] .unlimited).after 3).more [7] ∧
      ((load relay [5] .unlimited).after 3).sink.written = #[5] := by
  have hquiet : ∀ k < 3, ((load relay [5] .unlimited).answer k).exhausted = false := by decide
  obtain ⟨-, hafter⟩ := (causal relay [5] .unlimited).1 [7] 3 hquiet
  exact ⟨hquiet, by decide, by decide, hafter 3 (Nat.le_refl 3), by decide⟩

end Machine

end PL0
