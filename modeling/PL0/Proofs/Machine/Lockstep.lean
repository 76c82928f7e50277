import PL0.Proofs.Codegen.Layout
import PL0.Proofs.Semantics.Leveled

/-!
# `Machine.Lockstep` — the machine beside the interpreter

An elementary action of the interpreter and the instruction at an address do the same (`Does`): from
a machine that holds the store of the interpreter, the step leads to one that holds its store after
the action. A whole evaluation is followed by the machine in as many steps as it takes time off the
clock (`Follows`).

Main statements: `Follows.act` and `Follows.bind` build the second from the first, `Follows.loop`
goes round a loop, and `does_…` says what each instruction does.
-/

namespace PL0

open Clocked

/-! ## Machines that hold a store

Besides the code, which no step changes, the machine has two parts more than the interpreter: the
next address and the operand stack. All others are those of the store. -/

namespace Store

/-- The sink that has taken the output. -/
def sink (st : Store) : Sink := ⟨st.output.toArray, st.output.length, none, none⟩

/-- The machine that holds the store, about to execute the instruction at `x`. -/
def machine (code : Array Instruction) (x : Nat) (stack : List Int) (st : Store) : Machine :=
  ⟨code, some x, stack, st.memory, st.input, st.sink⟩

/-- The machine has the blocks, the input and the output of the store. -/
structure Shows (st : Store) (m : Machine) : Prop where
  memory : m.memory = st.memory
  input : m.input = st.input
  sink : m.sink = st.sink

/-- A machine that holds a store shows it, wherever it stands. -/
theorem shows_machine (st : Store) (code : Array Instruction) (x : Nat) (stack : List Int) :
    st.Shows (st.machine code x stack) := ⟨rfl, rfl, rfl⟩

end Store

namespace Machine

/-- The machine reaches another in `n` steps, all of which answer `running`. -/
def Reaches : Nat → Machine → Machine → Prop
  | 0, m, m' => m = m'
  | n + 1, m, m' => ∃ m₁, m.step = (.running, m₁) ∧ Reaches n m₁ m'

/-- The next instruction is a `CAL` that loads `v`, after which the machine shows the store. -/
def Calls (m : Machine) (v : Int) (st : Store) : Prop :=
  ∃ x level slot m', m.fetch? = some (x, .make .cal level slot) ∧
    m.fetchValue level slot = .ok (v, m') ∧ st.Shows m'

/-- First `n` steps, then `k` more. -/
theorem Reaches.trans {n k : Nat} {m m' m'' : Machine} (h : Reaches n m m')
    (h' : Reaches k m' m'') : Reaches (n + k) m m'' := by
  induction n generalizing m with
  | zero =>
    rw [Nat.zero_add]
    exact (show m = m' from h) ▸ h'
  | succ n ih =>
    obtain ⟨m₁, hstep, hrest⟩ := h
    rw [Nat.add_right_comm]
    exact ⟨m₁, hstep, ih hrest⟩

end Machine

open Machine

/-! ## One action, one instruction

Time is what both sides have in common. An action takes one unit of it, an instruction is one step;
so the code has followed an evaluation exactly if the steps made are the units taken off the clock.
The bound `gas` is there for the calls: what a call runs has less gas than the caller, and what is
known of it is an induction hypothesis. -/

section

variable {α β : Type} {code : Array Instruction} {x y level : Nat} {i : Instruction}
  {stack : List Int}

/-- The instruction at `x` does what the action does, and goes on at `y`. -/
def Does (code : Array Instruction) (f : EStateM Stop Store α) (x : Nat) (stack : List Int)
    (y : Nat) (after : α → List Int) : Prop :=
  ∀ st : Store,
    match f st with
    | .ok a st' =>
      (st.machine code x stack).step = (.running, st'.machine code y (after a))
    | .error (.fault e) st' =>
      ∃ m', (st.machine code x stack).step = (.fault x e, m') ∧ st'.Shows m'
    | .error _ _ => False

/-- How the machine `m` follows an evaluation that began with `clock` units of time: at its end it
    is at `y`; a fault is its own fault; at a call of a stray value it is about to load this value;
    and where time is over it has made `clock` steps. -/
def Follow (code : Array Instruction) (m : Machine) (clock y : Nat) (after : α → List Int) :
    EStateM.Result Stop (Nat × Store) α → Prop
  | .ok a (n, st) => n ≤ clock ∧ Reaches (clock - n) m (st.machine code y (after a))
  | .error .timeout (_, st) => ∃ m', Reaches clock m m' ∧ st.Shows m'
  | .error (.fault f) (_, st) =>
    ∃ k m₁ x m', k < clock ∧ Reaches k m m₁ ∧ m₁.step = (.fault x f, m') ∧ st.Shows m'
  | .error (.stray v) (_, st) => ∃ k m', k < clock ∧ Reaches k m m' ∧ m'.Calls v st
  | .error .unbound _ => False

/-- The code from `x` to `y` follows the evaluation `c`, with `stack` on the operand stack in front
    and `after` behind it. This holds for clocks of less than `gas` units. -/
def Follows (code : Array Instruction) (gas : Nat) (c : Clocked Store α) (x : Nat)
    (stack : List Int) (y : Nat) (after : α → List Int) : Prop :=
  ∀ clock < gas, ∀ st : Store,
    Follow code (st.machine code x stack) clock y after (c (clock, st))

variable {gas : Nat} {f : EStateM Stop Store α} {c : Clocked Store α} {after : α → List Int}

/-- What holds for more gas holds for less. -/
theorem Follows.mono {gas' : Nat} (h : Follows code gas c x stack y after) (hle : gas' ≤ gas) :
    Follows code gas' c x stack y after :=
  fun clock hclock => h clock (Nat.lt_of_lt_of_le hclock hle)

/-- Nothing is done in no time. -/
theorem Follows.pure (a : α) (h : after a = stack) :
    Follows code gas (pure a) x stack x after :=
  fun clock _ st => ⟨Nat.le_refl _, by rw [Nat.sub_self, h]; rfl⟩

/-- Behind the steps already made. -/
theorem Follow.behind {m m' : Machine} {n clock : Nat} {r : EStateM.Result Stop (Nat × Store) α}
    (hle : n ≤ clock) (hm : Reaches (clock - n) m m') (h : Follow code m' n y after r) :
    Follow code m clock y after r := by
  -- In each case the steps add up, and what is left to say is said by `h`.
  cases r with
  | ok a s =>
    obtain ⟨k, st⟩ := s
    obtain ⟨hk, hrest⟩ := h
    have htrans := hm.trans hrest
    rw [Nat.sub_add_sub_cancel hle hk] at htrans
    exact ⟨Nat.le_trans hk hle, htrans⟩
  | error e s =>
    obtain ⟨k, st⟩ := s
    cases e with
    | timeout =>
      obtain ⟨m₁, hrest, hshows⟩ := h
      have htrans := hm.trans hrest
      rw [Nat.sub_add_cancel hle] at htrans
      exact ⟨m₁, htrans, hshows⟩
    | fault f =>
      obtain ⟨k, m₁, x, m₂, hk, hrest, hstep, hshows⟩ := h
      exact ⟨clock - n + k, m₁, x, m₂, by omega, hm.trans hrest, hstep, hshows⟩
    | stray v =>
      obtain ⟨k, m₁, hk, hrest, hcalls⟩ := h
      exact ⟨clock - n + k, m₁, by omega, hm.trans hrest, hcalls⟩
    | unbound => exact h

/-- **One evaluation after the other.** -/
theorem Follows.bind {z : Nat} {g : α → Clocked Store β} {last : β → List Int}
    (hc : Follows code gas c x stack y after)
    (hg : ∀ a, Follows code gas (g a) y (after a) z last) :
    Follows code gas (c >>= g) x stack z last := by
  intro clock hclock st
  have h := hc clock hclock st
  -- What stops the first evaluation stops both.
  cases hr : c (clock, st) with
  | ok a s =>
    obtain ⟨n, st'⟩ := s
    rw [hr] at h
    obtain ⟨hle, hreach⟩ := h
    rw [bind_of_ok hr]
    exact (hg a n (Nat.lt_of_le_of_lt hle hclock) st').behind hle hreach
  | error e s =>
    obtain ⟨n, st'⟩ := s
    rw [hr] at h
    rw [bind_of_error hr]
    cases e <;> exact h

/-- **An action, and what comes after it**, which has less time. -/
theorem Follows.act_bind {z : Nat} {g : α → Clocked Store β} {last : β → List Int}
    (hf : Does code f x stack y after) (hg : ∀ a, Follows code gas (g a) y (after a) z last) :
    Follows code (gas + 1) (act f >>= g) x stack z last := by
  intro clock hclock st
  have h := hf st
  -- Without time the action does not begin, and the machine has not moved.
  cases clock with
  | zero =>
    rw [bind_of_error (act_zero f st)]
    exact ⟨_, rfl, st.shows_machine code x stack⟩
  | succ n =>
    cases hr : f st with
    | ok a st' =>
      rw [hr] at h
      rw [bind_of_ok (act_succ_of_ok hr n)]
      refine (hg a n (Nat.lt_of_succ_lt_succ hclock) st').behind (Nat.le_succ n) ?_
      rw [Nat.add_sub_cancel_left]
      exact ⟨_, h, rfl⟩
    | error e st' =>
      rw [hr] at h
      rw [bind_of_error (act_succ_of_error hr n)]
      cases e with
      | fault e =>
        obtain ⟨m', hstep, hshows⟩ := h
        exact ⟨0, _, x, m', Nat.succ_pos n, rfl, hstep, hshows⟩
      -- No instruction ends an action for these reasons.
      | timeout => exact h.elim
      | stray v => exact h.elim
      | unbound => exact h.elim

/-- **An action.** -/
theorem Follows.act (hf : Does code f x stack y after) :
    Follows code gas (act f) x stack y after := by
  have hend (a : α) : Follows code gas (Pure.pure a) y (after a) y after := Follows.pure a rfl
  have h := Follows.act_bind hf hend
  rw [bind_pure] at h
  exact h.mono (Nat.le_succ gas)

/-- **A loop.** The test is followed from `x` on and leaves its value; behind it a conditional jump
    leads out of the loop, and behind the body a jump leads back. -/
theorem Follows.loop {test : Clocked Store Int} {body : Clocked Store Unit} {exit jpc jmp : Nat}
    (htest : Follows code gas test x stack jpc (· :: stack))
    (hjpc : ∀ v, Does code (Pure.pure ()) jpc (v :: stack) (if v = 0 then exit else jpc + 1)
      fun _ => stack)
    (hbody : Follows code gas body (jpc + 1) stack jmp fun _ => stack)
    (hjmp : Does code (Pure.pure ()) jmp stack x fun _ => stack) {rounds : Nat}
    (hrounds : rounds ≤ gas) :
    Follows code rounds (loop test body rounds) x stack exit fun _ => stack := by
  induction rounds with
  | zero => exact fun clock hclock => absurd hclock (Nat.not_lt_zero clock)
  | succ rounds ih =>
    -- The test at `JPC` takes time, so one round less is enough for what is left of it.
    have hle : rounds ≤ gas := Nat.le_of_succ_le hrounds
    refine (htest.mono hrounds).bind fun v => Follows.act_bind (hjpc v) fun _ => ?_
    by_cases hv : v = 0
    · rw [if_pos hv, if_pos hv]
      exact Follows.pure () rfl
    · rw [if_neg hv, if_neg hv]
      refine (hbody.mono hle).bind fun _ => ?_
      exact (Follows.act hjmp).bind fun _ => ih hle

end

/-! ## What the instructions do

A step fetches the instruction at `x` and executes it with the next address already advanced. What
remains for each instruction is its execution, and for those that access a cell, that fetching and
putting are the same on both sides. -/

namespace Store

variable {code : Array Instruction} {x y : Nat} {stack after : List Int} {i : Instruction}

/-- An instruction that executes without a fault leaves the machine running. -/
theorem step_of_done {st st' : Store} (hi : code[x]? = some i)
    (h : (st.machine code (x + 1) stack).execute x i = (none, st'.machine code y after)) :
    (st.machine code x stack).step = (.running, st'.machine code y after) := by
  unfold machine Machine.step at *
  simp only [hi, h]
  rfl

/-- An instruction with a fault ends the run at its own address. -/
theorem step_of_fault {st : Store} {f : Fault} {m : Machine} (hi : code[x]? = some i)
    (h : (st.machine code (x + 1) stack).execute x i = (some (.fault f), m)) :
    (st.machine code x stack).step = (.fault x f, m) := by
  unfold machine Machine.step at *
  simp only [hi, h]

/-- An instruction that leaves no next address halts the machine. -/
theorem step_of_halt {st : Store} {m : Machine} (hi : code[x]? = some i)
    (h : (st.machine code (x + 1) stack).execute x i = (none, m)) (hm : m.ip = none) :
    (st.machine code x stack).step = (.halted, m) := by
  unfold machine Machine.step at *
  simp only [hi, h, Machine.isHalted, hm]
  rfl

/-- The machine fetches what the interpreter fetches. -/
theorem fetch_cases (level slot : Nat) (st : Store) :
    (∃ v st', fetch level slot st = .ok v st' ∧ ∀ code x stack,
      (st.machine code x stack).fetchValue level slot = .ok (v, st'.machine code x stack)) ∨
    ∃ f, fetch level slot st = .error (.fault f) st ∧ ∀ code x stack,
      (st.machine code x stack).fetchValue level slot = .error f := by
  obtain ⟨memory, input, output⟩ := st
  unfold fetch Machine.fetchValue machine
  cases hcell : memory.cell level slot with
  | none => exact Or.inr ⟨_, rfl, fun _ _ _ => by simp only [hcell]⟩
  | some cell =>
    cases cell with
    | slot l k v => exact Or.inl ⟨v, _, rfl, fun _ _ _ => by simp only [hcell]⟩
    | output => exact Or.inr ⟨_, rfl, fun _ _ _ => by simp only [hcell]⟩
    | input =>
      cases input with
      | nil => exact Or.inr ⟨_, rfl, fun _ _ _ => by simp only [hcell]⟩
      | cons v input =>
        refine Or.inl ⟨v, _, rfl, fun _ _ _ => ?_⟩
        simp only [hcell]
        rfl

/-- The machine puts where the interpreter puts. -/
theorem put_cases (level slot : Nat) (v : Int) (st : Store) :
    (∃ st', put level slot v st = .ok () st' ∧ ∀ code x stack,
      (st.machine code x stack).storeValue level slot v = (none, st'.machine code x stack)) ∨
    ∃ f, put level slot v st = .error (.fault f) st ∧ ∀ code x stack,
      (st.machine code x stack).storeValue level slot v =
        (some (.fault f), st.machine code x stack) := by
  obtain ⟨memory, input, output⟩ := st
  unfold put Machine.storeValue machine
  cases hcell : memory.cell level slot with
  | none =>
    refine Or.inr ⟨_, rfl, fun _ _ _ => ?_⟩
    simp only [hcell]
    rfl
  | some cell =>
    cases cell with
    | slot l k _ =>
      refine Or.inl ⟨_, rfl, fun _ _ _ => ?_⟩
      simp only [hcell]
      rfl
    | input =>
      refine Or.inr ⟨_, rfl, fun _ _ _ => ?_⟩
      simp only [hcell]
      rfl
    | output =>
      refine Or.inl ⟨_, rfl, fun _ _ _ => ?_⟩
      simp only [hcell]
      -- The sink takes everything.
      simp [sink, Sink.write, Machine.done]

/-- A jump to an address that is not negative succeeds, even if there is no instruction at it. -/
theorem jump_machine (st : Store) (code : Array Instruction) (x : Nat) (stack : List Int)
    (target : Nat) :
    (st.machine code x stack).jump target = (none, st.machine code target stack) := by
  unfold Machine.jump
  rw [if_neg (by omega)]
  rfl

end Store

section

variable {code : Array Instruction} {x level slot : Nat} {stack : List Int}

/-- `LIT` pushes its offset. -/
theorem does_lit {n : Int} (hi : code[x]? = some (.make .lit 0 n)) :
    Does code (pure n) x stack (x + 1) (· :: stack) :=
  fun _ => Store.step_of_done hi rfl

/-- `LOD` pushes what the interpreter fetches, or has the same fault. -/
theorem does_lod (hi : code[x]? = some (.make .lod level slot)) :
    Does code (Store.fetch level slot) x stack (x + 1) (· :: stack) := by
  intro st
  rcases st.fetch_cases level slot with ⟨v, st', hf, hm⟩ | ⟨f, hf, hm⟩
  · rw [hf]
    refine Store.step_of_done hi ?_
    simp only [Machine.execute, Instruction.make, hm]
    rfl
  · rw [hf]
    refine ⟨st.machine code (x + 1) stack, Store.step_of_fault hi ?_, st.shows_machine ..⟩
    simp only [Machine.execute, Instruction.make, hm]
    rfl

/-- `STO` takes the value from the top of the stack and puts it where the interpreter does. -/
theorem does_sto {v : Int} (hi : code[x]? = some (.make .sto level slot)) :
    Does code (Store.put level slot v) x (v :: stack) (x + 1) fun _ => stack := by
  intro st
  rcases st.put_cases level slot v with ⟨st', hf, hm⟩ | ⟨f, hf, hm⟩
  · rw [hf]
    exact Store.step_of_done hi (hm code (x + 1) stack)
  · rw [hf]
    exact ⟨st.machine code (x + 1) stack, Store.step_of_fault hi (hm code (x + 1) stack),
      st.shows_machine ..⟩

/-- An arithmetic operator takes two values; the right operand is the upper one. -/
theorem does_arith {op : Arith} {l r : Int} (hi : code[x]? = some (.apply (.arith op))) :
    Does code (orFault (op.eval l r)) x (r :: l :: stack) (x + 1) (· :: stack) := by
  intro st
  unfold orFault
  cases hop : op.eval l r with
  | ok v =>
    refine Store.step_of_done hi ?_
    simp only [Machine.execute, Instruction.apply, Machine.applyOperator, Store.machine, hop]
    rfl
  | error f =>
    refine ⟨st.machine code (x + 1) stack, Store.step_of_fault hi ?_, st.shows_machine ..⟩
    simp only [Machine.execute, Instruction.apply, Machine.applyOperator, Store.machine, hop]
    rfl

/-- A comparison leaves 1 or 0 in place of two values. -/
theorem does_relation {rel : Relation} {l r : Int}
    (hi : code[x]? = some (.apply (.relation rel))) :
    Does code (pure (Word.ofBool (rel.holds l r))) x (r :: l :: stack) (x + 1) (· :: stack) :=
  fun _ => Store.step_of_done hi rfl

/-- `odd` leaves 1 or 0 in place of one value. -/
theorem does_odd {v : Int} (hi : code[x]? = some (.apply .odd)) :
    Does code (pure (Word.ofBool (v % 2 != 0))) x (v :: stack) (x + 1) (· :: stack) :=
  fun _ => Store.step_of_done hi rfl

/-- `JMP` changes nothing but the next address. -/
theorem does_jmp {target : Nat} (hi : code[x]? = some (.make .jmp 0 target)) :
    Does code (pure ()) x stack target fun _ => stack :=
  fun _ => Store.step_of_done hi rfl

/-- `JPC` takes a value and jumps if it is 0. -/
theorem does_jpc {target : Nat} {v : Int} (hi : code[x]? = some (.make .jpc 0 target)) :
    Does code (pure ()) x (v :: stack) (if v = 0 then target else x + 1) fun _ => stack := by
  intro st
  refine Store.step_of_done hi ?_
  by_cases hv : v = 0
  · rw [if_pos hv, hv]
    rfl
  · simp only [Machine.execute, Instruction.make, Store.machine, if_neg hv]
    rfl

/-- `INT` opens a block of as many slots, or has the fault of the interpreter. -/
theorem does_int {size : Nat} (hi : code[x]? = some (.make .int 0 size)) :
    Does code (Store.openBlock size) x stack (x + 1) fun _ => stack := by
  intro st
  unfold Store.openBlock
  cases hm : st.memory.enter? size with
  | some memory =>
    have hneg : ¬ ((size : Nat) : Int) < 0 := by omega
    refine Store.step_of_done hi ?_
    simp only [Machine.execute, Instruction.make, if_neg hneg, Int.toNat_natCast, Store.machine, hm]
    rfl
  | none =>
    have hneg : ¬ ((size : Nat) : Int) < 0 := by omega
    refine ⟨st.machine code (x + 1) stack, Store.step_of_fault hi ?_, st.shows_machine ..⟩
    simp only [Machine.execute, Instruction.make, if_neg hneg, Int.toNat_natCast, Store.machine, hm]
    rfl

/-- Leaving a block returns behind the call. -/
theorem does_leave {target : Nat} (hi : code[x]? = some .leave) :
    Does code Store.closeBlock x (target :: stack) target fun _ => stack := by
  intro st
  unfold Store.closeBlock
  cases hm : st.memory.exit? with
  | some memory =>
    refine Store.step_of_done hi ?_
    show Machine.leave _ = _
    simp only [Machine.leave, Store.machine, hm]
    exact Store.jump_machine { st with memory } code (x + 1) stack target
  | none =>
    refine ⟨st.machine code (x + 1) (target :: stack), Store.step_of_fault hi ?_,
      st.shows_machine ..⟩
    show Machine.leave _ = _
    simp only [Machine.leave, Store.machine, hm]
    rfl

end

end PL0
