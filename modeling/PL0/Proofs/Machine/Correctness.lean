import PL0.Proofs.Machine.Simulation
import PL0.Proofs.Semantics.Scoping

/-!
# `Machine.Correctness` — generated code against the meanings of the tree

For every program that has code, a run of this code agrees at every stage with the interpreter that
counts levels from the top of its stack of blocks (`Program.compile_interpret`). Where the calls of
the program stay in their block, the same run agrees with the block-structured meaning of the
program (`Program.compile_evaluate`). `descent` is a program where the two meanings differ.
-/

namespace PL0

open Static

/-- The machine has the input and the output of the state. -/
structure Static.State.Shows (st : State) (m : Machine) : Prop where
  input : m.input = st.input
  output : m.sink.written.toList = st.output

theorem Observed.shows {st : State} {store : Store} {m : Machine} (h : Observed st store)
    (hm : store.Shows m) : st.Shows m where
  input := hm.input.trans h.1.symm
  output := by
    rw [hm.sink, h.2]
    rfl

namespace Program

variable {p : Program} {code : Array Instruction}

/-- **Level-from-the-top addressing.** Generated code does what the interpreter does that counts
    levels from the top of its stack of blocks. Where the interpreter is still at work after `t`
    actions, or has ended in order or with a fault, so has the machine after `t` steps, and it has
    the same blocks, input and output. Where the interpreter has come upon a call of a value that is
    no entry address, the machine has been about to load this value. -/
theorem compile_interpret (hc : p.compile.1 = .ok code) (input : List Int) (t : Nat) :
    let run k := Run.advance k (Run.start (Machine.load code input Sink.unlimited))
    match p.interpret input t with
    | .ok _ (left, st) =>
      (run t).outcome = .halted ∧ (run t).steps + 1 + left = t ∧ st.Shows (run t).machine
    | .error .timeout (_, st) =>
      (run t).outcome = .running ∧ (run t).steps = t ∧ st.Shows (run t).machine
    | .error (.fault f) (_, st) =>
      (∃ x, (run t).outcome = .fault x f) ∧ st.Shows (run t).machine
    | .error (.stray v) (_, st) =>
      ∃ k < t, (run k).outcome = .running ∧ (run k).steps = k ∧ (run k).machine.Calls v st
    | .error .unbound _ => False := by
  have h := interpret_agrees hc input t
  rcases hr : p.interpret input t with ⟨u, left, st⟩ | ⟨_ | f | v | _, left, st⟩
  · rw [hr] at h
    exact h
  · rw [hr] at h
    exact h
  · rw [hr] at h
    obtain ⟨x, hx, hshows⟩ := h
    exact ⟨⟨x, hx⟩, hshows⟩
  · rw [hr] at h
    exact h
  · rw [hr] at h
    exact h

/-- The program
    `var n; procedure down; begin write(n); n := n - 1; if n > 0 then call down end;
    begin n := 3; call down end .` -/
def descent : Program :=
  let n : Ident := ⟨"n", 4⟩
  let down : Ident := ⟨"down", 17⟩
  let value : Factor := .ident n
  let number (v : Int) (i : Nat) : Factor := .number ⟨v, i⟩
  let single (f : Factor) : Expr := .mk none (.single (.single f))
  ⟨.mk [] [n] [.mk down (.mk [] [] [] (.block [
      .write [single value],
      .assign n (.mk none (.join (.single (.single value)) .sub (.single (number 1 47)))),
      .ifThen (.compare (single value) .gt (single (number 0 57))) (.call down)]))]
    (.block [.assign n (single (number 3 87)), .call down])⟩

/-- The code of `descent`. -/
def descentCode : Array Instruction :=
  #[.make .int 0 2, .make .lit 0 4, .make .sto 0 1, .make .jmp 0 17,
    .make .int 0 0, .make .lod 1 0, .make .sto 2 1,
    .make .lod 1 0, .make .lit 0 1, .apply (.arith .sub), .make .sto 1 0,
    .make .lod 1 0, .make .lit 0 0, .apply (.relation .gt), .make .jpc 0 16, .make .cal 1 1, .leave,
    .make .lit 0 3, .make .sto 0 0, .make .cal 0 1, .leave]

theorem compile_descent : descent.compile.1 = .ok descentCode := by cbv

/-- The second activation of `down` looks for `n` one block below its own, where the first one is,
    which has no slots. -/
theorem descent_faults :
    let r := Run.advance 100 (Run.start (Machine.load descentCode [] Sink.unlimited))
    (∃ x, r.outcome = .fault x (.invalidAddress 1 0)) ∧ r.machine.memory = ⟨[[], [], [2, 4]]⟩ ∧
      r.machine.sink.written.toList = [3] := by
  have h := compile_interpret compile_descent [] 100
  have hev : descent.interpret [] 100 =
      .error (.fault (.invalidAddress 1 0)) (79, ⟨⟨[[], [], [2, 4]]⟩, [], [3]⟩) := by cbv
  rw [hev] at h
  obtain ⟨hfault, hmemory, -, hsink⟩ := h
  exact ⟨hfault, hmemory, congrArg (·.written.toList) hsink⟩

/-- The two interpreters of a program whose calls stay in their block. -/
theorem Scoped.evaluate_interpret (hs : p.Scoped) (input : List Int) (t : Nat) :
    Matched Observed (same (Holds [])) (p.evaluate input t) (p.interpret input t) := by
  have hinitial : Holds [] ⟨[], input, []⟩ ⟨Memory.empty, input, []⟩ := ⟨rfl, rfl, rfl, rfl⟩
  have haround : Around [] Environment.initial [] := ⟨rfl, rfl, .nil⟩
  exact hs.run_related (t + 1) .main haround t _ _ hinitial

/-- **Correctness under static scoping.** Where no identifier is spelled like a channel, no block
    declares a name twice or too many, every call names a procedure of its own block, and no
    procedure is read or assigned to, generated code does what the block-structured meaning of the
    program says: it halts, runs on or ends with the same fault, after the same time and with the
    same input and output. -/
theorem compile_evaluate (hc : p.compile.1 = .ok code) (hs : p.Scoped) (input : List Int)
    (t : Nat) :
    let r := Run.advance t (Run.start (Machine.load code input Sink.unlimited))
    match p.evaluate input t with
    | .ok _ (left, st) => r.outcome = .halted ∧ r.steps + 1 + left = t ∧ st.Shows r.machine
    | .error .timeout (_, st) => r.outcome = .running ∧ r.steps = t ∧ st.Shows r.machine
    | .error (.fault f) (_, st) => (∃ x, r.outcome = .fault x f) ∧ st.Shows r.machine
    | .error (.stray _) _ => False
    | .error .unbound _ => False := by
  have h := interpret_agrees hc input t
  -- The meaning of the text and the interpreter end alike, and the machine like the interpreter.
  have hm := hs.evaluate_interpret input t
  rcases he : p.evaluate input t with ⟨u, left, st⟩ | ⟨e, left, st⟩
  · rw [he] at hm
    rcases hr : p.interpret input t with ⟨u', left', store⟩ | ⟨e, left', store⟩
    · rw [hr] at h hm
      obtain ⟨rfl, -, hholds⟩ := hm
      obtain ⟨hhalted, hsteps, hshows⟩ := h
      exact ⟨hhalted, hsteps, hholds.observed.shows hshows⟩
    · rw [hr] at hm
      exact hm.elim
  · rw [he] at hm
    rcases hr : p.interpret input t with ⟨u, left', store⟩ | ⟨e', left', store⟩
    · rw [hr] at hm
      exact hm.elim
    · rw [hr] at h hm
      obtain ⟨rfl, hstray, rfl, hobs⟩ := hm
      cases e with
      | timeout =>
        obtain ⟨hrunning, hsteps, hshows⟩ := h
        exact ⟨hrunning, hsteps, hobs.shows hshows⟩
      | fault f =>
        obtain ⟨x, hfault, hshows⟩ := h
        exact ⟨⟨x, hfault⟩, hobs.shows hshows⟩
      | stray v => exact hstray v rfl
      | unbound => exact h

/-- `countdown` counts 3 down to 0. -/
theorem countdown_correct :
    let r := Run.advance 43 (Run.start (Machine.load countdownCode [3] Sink.unlimited))
    r.outcome = .halted ∧ r.machine.input = [] ∧ r.machine.sink.written.toList = [0] := by
  have h := compile_evaluate compile_countdown countdown_scoped [3] 43
  have hev : countdown.evaluate [3] 43 = .ok () (0, ⟨[], [], [0]⟩) := by cbv
  rw [hev] at h
  exact ⟨h.1, h.2.2.input, h.2.2.output⟩

example : ¬ descent.Scoped := by decide

end Program

end PL0
