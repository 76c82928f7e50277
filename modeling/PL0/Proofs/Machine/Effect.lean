import PL0.Proofs.Codegen.Balance
import PL0.Proofs.Machine.Stepping

/-!
# `Machine.Effect` — what one step can do

`Effect` lists what an instruction that comes to its end does to the operand stack, to the number
of blocks and to the instruction pointer; the heights of `Codegen.Balance` count the same operands.
Main statement: every step that faults nowhere has one of these effects (`Machine.effect_of_step`).
-/

namespace PL0

/-- What the instruction `i` at address `x` has done, from the machine in front of it to the one
    behind it. -/
inductive Effect (x : Nat) (i : Instruction) (m m' : Machine) : Prop where
  /-- Control goes on behind the instruction. -/
  | next (popped pushed rest : List Int) : i.transfers = false ∨ i.op = .jpc →
      m.stack = popped ++ rest → popped.length = i.pops →
      m'.stack = pushed ++ rest → pushed.length = i.pushes →
      m'.memory.blocks.length = m.memory.blocks.length → m'.ip = some (x + 1) → Effect x i m m'
  | jump (target : Nat) (popped : List Int) : i.target? = some (target : Int) →
      m.stack = popped ++ m'.stack → popped.length = i.pops →
      m'.memory.blocks.length = m.memory.blocks.length → m'.ip = some target → Effect x i m m'
  | opened : i.op = .int → m'.stack = m.stack →
      m'.memory.blocks.length = m.memory.blocks.length + 1 → m'.ip = some (x + 1) → Effect x i m m'
  | called (target : Nat) : i.op = .cal → m'.stack = ((x + 1 : Nat) : Int) :: m.stack →
      m'.memory.blocks.length = m.memory.blocks.length → m'.ip = some target → Effect x i m m'
  | returned (target : Nat) : i.op = .opr → i.offset = .number 0 →
      m.stack = (target : Int) :: m'.stack →
      m.memory.blocks.length = m'.memory.blocks.length + 1 → m'.ip = some target → Effect x i m m'
  | halted : i.op = .opr → i.offset = .number 0 → m.stack = [] → m'.stack = [] →
      m.memory.blocks.length = m'.memory.blocks.length + 1 → m'.ip = none → Effect x i m m'

namespace Machine

variable {m m' : Machine} {x : Nat} {i : Instruction}

theorem Computes.arity {popped : List Int} {v : Int} (h : Computes i popped v) :
    i.transfers = false ∧ popped.length = i.pops ∧ i.pushes = 1 := by
  cases h with
  | literal => exact ⟨rfl, rfl, rfl⟩
  | odd => exact ⟨rfl, rfl, rfl⟩
  | relation => exact ⟨rfl, rfl, rfl⟩
  | arith _ => exact ⟨rfl, rfl, rfl⟩

theorem jump_eq_done {target : Int} (h : m.jump target = (none, m')) :
    ∃ y : Nat, target = y ∧ m' = { m with ip := some y } := by
  unfold jump at h
  split at h
  · cases h
  · cases h
    exact ⟨target.toNat, by omega, rfl⟩

theorem execute_effect (h : { m with ip := some (x + 1) }.execute x i = (none, m')) :
    m'.code = m.code ∧ Effect x i m m' := by
  have hacts := acts_execute { m with ip := some (x + 1) } x i
  rw [h] at hacts
  generalize hr : ((none, m') : Option Interruption × Machine) = r at hacts
  cases hacts with
  | stuck f popped rest _ _ _ _ => cases hr
  | computed rest hv hs =>
    cases hr
    obtain ⟨htransfers, hpops, hpushes⟩ := hv.arity
    exact ⟨rfl, .next _ [_] rest (Or.inl htransfers) hs hpops rfl hpushes.symm rfl rfl⟩
  | loaded _ =>
    cases hr
    exact ⟨rfl, .next [] [_] m.stack (Or.inl rfl) rfl rfl rfl rfl rfl rfl⟩
  | @stored _ _ _ _ v _ rest hs _ =>
    cases hr
    exact ⟨rfl, .next [v] [] rest (Or.inl rfl) hs rfl rfl rfl (by simp [Memory.set]) rfl⟩
  | @wrote _ _ v rest hs _ =>
    cases (Prod.mk.inj hr).2
    exact ⟨rfl, .next [v] [] rest (Or.inl rfl) hs rfl rfl rfl rfl rfl⟩
  | jumped =>
    obtain ⟨y, rfl, rfl⟩ := jump_eq_done hr.symm
    exact ⟨rfl, .jump y [] rfl rfl rfl rfl rfl⟩
  | branched hs =>
    obtain ⟨y, rfl, rfl⟩ := jump_eq_done hr.symm
    exact ⟨rfl, .jump y [0] rfl hs rfl rfl rfl⟩
  | @passed _ _ v rest hs _ =>
    cases hr
    exact ⟨rfl, .next [v] [] rest (Or.inr rfl) hs rfl rfl rfl rfl rfl⟩
  | called _ =>
    obtain ⟨y, rfl, rfl⟩ := jump_eq_done hr.symm
    exact ⟨rfl, .called y rfl rfl rfl rfl⟩
  | opened _ =>
    cases hr
    exact ⟨rfl, .opened rfl rfl rfl rfl⟩
  | returned hb hs =>
    obtain ⟨y, rfl, rfl⟩ := jump_eq_done hr.symm
    exact ⟨rfl, .returned y rfl rfl hs (congrArg List.length hb) rfl⟩
  | halted hb hs =>
    cases hr
    exact ⟨rfl, .halted rfl rfl hs rfl (congrArg List.length hb) rfl⟩

/-- **What a step does** that neither faults nor is refused a value. -/
theorem effect_of_step {o : Outcome} (hip : m.ip = some x) (hi : m.code[x]? = some i)
    (h : m.step = (o, m')) (ho : o = .running ∨ o = .halted) :
    m'.code = m.code ∧ Effect x i m m' := by
  simp only [step, hip, hi] at h
  split at h
  · rename_i m₁ hexec
    cases h
    exact execute_effect hexec
  · cases h
    rcases ho with h | h <;> cases h
  · cases h
    rcases ho with h | h <;> cases h

end Machine

end PL0
