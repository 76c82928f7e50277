import Mathlib.Algebra.Ring.Int.Parity
import PL0.Proofs.Machine.Safety

/-!
# `Machine.Arithmetic` — exact results or none

What an operator should compute is said here in terms of integers alone: `Arith.Result` is the exact
result, a quotient being the one cut off toward zero (`Arith.Truncates`), `Relation.Relates` is the
relation as a proposition. `Machine.Operates` says that the machine computes just that, as long as
the result is a word, and otherwise faults.

Main statement: `Machine.arithmetic_exact`. On fitting code, whose addresses are words, a machine
holds and writes nothing but words, however often it is stepped, and no operator ever puts anything
but the exact result on the stack.
-/

namespace PL0

/-! ## Results of the operators

The machine computes on integers without bound and checks the result. So each operator is compared
twice: with the exact result, which exists but for a division by zero, and with the range of words.
-/

namespace Arith

/-- `q` is the quotient of `l` by `r`, cut off toward zero: what remains is smaller than the divisor
    and has the sign of `l`. -/
def Truncates (l r q : Int) : Prop :=
  ∃ s, l = r * q + s ∧ s.natAbs < r.natAbs ∧ (0 ≤ l → 0 ≤ s) ∧ (l ≤ 0 → s ≤ 0)

/-- `v` is the exact result. -/
def Result : Arith → Int → Int → Int → Prop
  | add, l, r, v => v = l + r
  | sub, l, r, v => v = l - r
  | mul, l, r, v => v = l * r
  | div, l, r, v => Truncates l r v

/-- There is one quotient that is cut off toward zero, and it is `Int.tdiv`. -/
theorem truncates_iff {l r q : Int} (hr : r ≠ 0) : Truncates l r q ↔ q = l.tdiv r := by
  constructor
  · rintro ⟨s, hl, hs, hpos, hneg⟩
    rcases Int.le_total 0 l with h | h
    · have hs' := hpos h
      exact ((Int.tdiv_tmod_unique h hr).2 ⟨by omega, hs', by omega⟩).1.symm
    · have hs' := hneg h
      exact ((Int.tdiv_tmod_unique' h hr).2 ⟨by omega, by omega, hs'⟩).1.symm
  · rintro rfl
    refine ⟨l.tmod r, (Int.mul_tdiv_add_tmod l r).symm, ?_, Int.tmod_nonneg r, ?_⟩
    · rw [Int.natAbs_tmod]
      exact Nat.mod_lt _ (by omega)
    · intro h
      have hneg := Int.tmod_nonneg r (Int.neg_nonneg_of_nonpos h)
      rw [Int.neg_tmod] at hneg
      omega

/-- Nothing is a quotient by zero. -/
theorem not_truncates_zero {l q : Int} : ¬ Truncates l 0 q := by
  rintro ⟨s, -, hs, -⟩
  exact absurd hs (Nat.not_lt_zero _)

end Arith

/-- The check lets words through, unchanged. -/
theorem Fault.orOverflow_eq_ok_iff {v w : Int} :
    orOverflow v = .ok w ↔ w = v ∧ Word.InRange w := by
  unfold orOverflow Word.checked
  by_cases hv : Word.InRange v
  · rw [if_pos hv]
    constructor
    · rintro ⟨⟩
      exact ⟨rfl, hv⟩
    · rintro ⟨rfl, -⟩
      rfl
  · rw [if_neg hv]
    constructor
    · nofun
    · rintro ⟨rfl, hw⟩
      exact absurd hw hv

/-- Nothing else is wrong with a number that is not let through. -/
theorem Fault.orOverflow_eq_error_iff {v : Int} {f : Fault} :
    orOverflow v = .error f ↔ f = .overflow ∧ ¬ Word.InRange v := by
  unfold orOverflow Word.checked
  by_cases hv : Word.InRange v
  · rw [if_pos hv]
    constructor
    · nofun
    · rintro ⟨-, hw⟩
      exact absurd hv hw
  · rw [if_neg hv]
    constructor
    · rintro ⟨⟩
      exact ⟨rfl, hv⟩
    · rintro ⟨rfl, -⟩
      rfl

namespace Arith

variable {op : Arith} {l r v : Int} {f : Fault}

/-- An operator has one exact result, which is what it is checked for, unless it divides by zero. -/
theorem eval_eq (op : Arith) (l r : Int) :
    (op = .div ∧ r = 0 ∧ op.eval l r = .error .divisionByZero) ∨
      ∃ w, (∀ v, op.Result l r v ↔ v = w) ∧ ¬ (op = .div ∧ r = 0) ∧
        op.eval l r = Fault.orOverflow w := by
  cases op with
  | add => exact .inr ⟨l + r, fun _ => Iff.rfl, nofun, rfl⟩
  | sub => exact .inr ⟨l - r, fun _ => Iff.rfl, nofun, rfl⟩
  | mul => exact .inr ⟨l * r, fun _ => Iff.rfl, nofun, rfl⟩
  | div =>
    by_cases hr : r = 0
    · exact .inl ⟨rfl, hr, if_pos hr⟩
    · exact .inr ⟨l.tdiv r, fun _ => truncates_iff hr, fun h => hr h.2, if_neg hr⟩

/-- The value is the exact result, where that is a word. -/
theorem eval_eq_ok_iff : op.eval l r = .ok v ↔ op.Result l r v ∧ Word.InRange v := by
  rcases eval_eq op l r with ⟨rfl, rfl, heval⟩ | ⟨w, hresult, -, heval⟩
  · rw [heval]
    constructor
    · nofun
    · rintro ⟨h, -⟩
      exact absurd h not_truncates_zero
  · rw [heval, Fault.orOverflow_eq_ok_iff, hresult]

/-- There is an overflow where the exact result is no word. -/
theorem eval_eq_overflow_iff :
    op.eval l r = .error .overflow ↔ ∃ v, op.Result l r v ∧ ¬ Word.InRange v := by
  rcases eval_eq op l r with ⟨rfl, rfl, heval⟩ | ⟨w, hresult, -, heval⟩
  · rw [heval]
    constructor
    · nofun
    · rintro ⟨v, h, -⟩
      exact absurd h not_truncates_zero
  · simp only [heval, Fault.orOverflow_eq_error_iff, hresult, true_and, exists_eq_left]

/-- A divisor of zero is found before anything is divided. -/
theorem eval_eq_divisionByZero_iff :
    op.eval l r = .error .divisionByZero ↔ op = .div ∧ r = 0 := by
  rcases eval_eq op l r with ⟨hop, hr, heval⟩ | ⟨w, -, hne, heval⟩
  · exact ⟨fun _ => ⟨hop, hr⟩, fun _ => heval⟩
  · rw [heval, Fault.orOverflow_eq_error_iff]
    constructor
    · rintro ⟨h, -⟩
      cases h
    · exact fun h => absurd h hne

/-- There is no other fault. -/
theorem fault_of_eval (h : op.eval l r = .error f) : f = .overflow ∨ f = .divisionByZero := by
  rcases eval_eq op l r with ⟨-, -, heval⟩ | ⟨w, -, -, heval⟩
  · cases h.symm.trans heval
    exact .inr rfl
  · exact .inl (Fault.orOverflow_eq_error_iff.1 (heval.symm.trans h)).1

end Arith

/-- The relation, left operand first. -/
def Relation.Relates : Relation → Int → Int → Prop
  | eq, l, r => l = r
  | ne, l, r => l ≠ r
  | lt, l, r => l < r
  | le, l, r => l ≤ r
  | gt, l, r => l > r
  | ge, l, r => l ≥ r

/-- The machine decides the relation. -/
theorem Relation.holds_iff (rel : Relation) (l r : Int) :
    rel.holds l r = true ↔ rel.Relates l r := by
  cases rel <;> simp [holds, Relates]

/-- `w` is 1 where the proposition is true and 0 where it is not. -/
def Word.TruthOf (p : Prop) (w : Int) : Prop := (p → w = 1) ∧ (¬ p → w = 0)

/-- One word stands for the truth of a proposition. -/
theorem Word.truthOf_iff {p : Prop} {b : Bool} (h : b = true ↔ p) {w : Int} :
    TruthOf p w ↔ w = ofBool b := by
  unfold TruthOf ofBool
  cases b with
  | true => simp [h.1 rfl]
  | false => simp [show ¬ p from fun hp => absurd (h.2 hp) Bool.false_ne_true]

namespace Machine

variable {code : Array Instruction} {m : Machine} {x level : Nat} {i : Instruction}
  {rest : List Int}

/-! ## Operators

From the evaluation of an operator to the step of the machine. Both operands are gone from the stack
whatever comes of them; the result takes their place only if there is one. -/

/-- The step at `x` answers `running`, and `v` is on top of the operands `rest`; all else is as it
    was. -/
def Computed (m : Machine) (x : Nat) (rest : List Int) (v : Int) : Prop :=
  m.step = (.running, { m with ip := some (x + 1), stack := v :: rest })

/-- What the next step does with the operands on top of the stack, if it is one of an operator. -/
structure Operates (m : Machine) : Prop where
  /-- The result is the exact one where it is a word. The step faults if it is not, and if it divides
      by zero; other answers it does not give. -/
  arith : ∀ x level op l r rest, m.fetch? = some (x, ⟨.opr, level, .operator (.arith op)⟩) →
    m.stack = r :: l :: rest →
      (∀ v, m.Computed x rest v ↔ op.Result l r v ∧ Word.InRange v) ∧
      (m.step.1 = .fault x .overflow ↔ ∃ v, op.Result l r v ∧ ¬ Word.InRange v) ∧
      (m.step.1 = .fault x .divisionByZero ↔ op = .div ∧ r = 0) ∧
      ((∃ v, m.Computed x rest v) ∨ m.step.1 = .fault x .overflow ∨
        m.step.1 = .fault x .divisionByZero)
  relation : ∀ x level rel l r rest,
    m.fetch? = some (x, ⟨.opr, level, .operator (.relation rel)⟩) → m.stack = r :: l :: rest →
      ∃ v, m.Computed x rest v ∧ Word.TruthOf (rel.Relates l r) v
  odd : ∀ x level v rest, m.fetch? = some (x, ⟨.opr, level, .operator .odd⟩) →
    m.stack = v :: rest → ∃ w, m.Computed x rest w ∧ Word.TruthOf (Odd v) w

/-- A step puts one value on the stack. -/
theorem computed_inj {v w : Int} (hv : m.Computed x rest v) :
    m.Computed x rest w ↔ w = v := by
  constructor
  · intro hw
    have heq := hw.symm.trans hv
    simp only [Prod.mk.injEq, Machine.mk.injEq, List.cons.injEq] at heq
    exact heq.2.2.2.1.1
  · rintro rfl
    exact hv

/-- The step of an operator is its application. -/
theorem step_operator {op : Operator}
    (hf : m.fetch? = some (x, ⟨.opr, level, .operator op⟩)) :
    m.step = conclude x ((m.advanced x).applyOperator op) := by
  obtain ⟨hip, hi⟩ := fetch?_eq_some_iff.1 hf
  exact step_fetched hip hi

section
variable {op : Arith} {l r : Int}

/-- The step answers as the evaluation does. -/
theorem step_arith (hf : m.fetch? = some (x, ⟨.opr, level, .operator (.arith op)⟩))
    (hs : m.stack = r :: l :: rest) :
    (∀ v, op.eval l r = .ok v → m.Computed x rest v) ∧
      ∀ f, op.eval l r = .error f → m.step.1 = .fault x f := by
  have hs' : (m.advanced x).stack = r :: l :: rest := hs
  constructor
  · intro v hv
    unfold Computed
    simp only [step_operator hf, applyOperator, hs', hv]
    rfl
  · intro f hv
    simp only [step_operator hf, applyOperator, hs', hv]
    rfl

/-- A value is on the stack exactly if it has been computed. -/
theorem computed_iff (hf : m.fetch? = some (x, ⟨.opr, level, .operator (.arith op)⟩))
    (hs : m.stack = r :: l :: rest) {v : Int} : m.Computed x rest v ↔ op.eval l r = .ok v := by
  obtain ⟨hok, herror⟩ := step_arith hf hs
  cases heval : op.eval l r with
  | ok w => rw [computed_inj (hok w heval), Except.ok.injEq, eq_comm]
  | error f =>
    have hfault := herror f heval
    constructor
    · intro hv
      rw [show m.step = _ from hv] at hfault
      cases hfault
    · nofun

/-- The step faults exactly if the evaluation does, and alike. -/
theorem fault_iff (hf : m.fetch? = some (x, ⟨.opr, level, .operator (.arith op)⟩))
    (hs : m.stack = r :: l :: rest) {f : Fault} :
    m.step.1 = .fault x f ↔ op.eval l r = .error f := by
  obtain ⟨hok, herror⟩ := step_arith hf hs
  cases heval : op.eval l r with
  | ok w =>
    have hrunning : m.step.1 = .running := congrArg Prod.fst (hok w heval)
    simp [hrunning]
  | error g => simp [herror g heval, eq_comm]

end

/-- **Operators are exact**, in every machine. -/
theorem operates (m : Machine) : Operates m where
  arith x level op l r rest hf hs := by
    refine ⟨fun v => (computed_iff hf hs).trans Arith.eval_eq_ok_iff,
      (fault_iff hf hs).trans Arith.eval_eq_overflow_iff,
      (fault_iff hf hs).trans Arith.eval_eq_divisionByZero_iff, ?_⟩
    cases heval : op.eval l r with
    | ok v => exact .inl ⟨v, (computed_iff hf hs).2 heval⟩
    | error f =>
      have hfault := (fault_iff hf hs).2 heval
      rcases Arith.fault_of_eval heval with rfl | rfl
      · exact .inr (.inl hfault)
      · exact .inr (.inr hfault)
  relation x level rel l r rest hf hs := by
    have hs' : (m.advanced x).stack = r :: l :: rest := hs
    refine ⟨Word.ofBool (rel.holds l r), ?_, (Word.truthOf_iff (rel.holds_iff l r)).2 rfl⟩
    unfold Computed
    simp only [step_operator hf, applyOperator, hs']
    rfl
  odd x level v rest hf hs := by
    have hs' : (m.advanced x).stack = v :: rest := hs
    have hodd : (v % 2 != 0) = true ↔ Odd v := by
      rw [bne_iff_ne, Int.odd_iff]
      omega
    refine ⟨Word.ofBool (v % 2 != 0), ?_, (Word.truthOf_iff hodd).2 rfl⟩
    unfold Computed
    simp only [step_operator hf, applyOperator, hs']
    rfl

/-! ## Values written

That the stack and the slots hold words only is part of the invariant of `Machine.Safety`. The sink
is no part of it, but all it has was on the stack before. -/

/-- What is written comes from the operand stack. -/
theorem mem_written_step {v : Int} (hv : v ∈ m.step.2.sink.written) :
    v ∈ m.sink.written ∨ v ∈ m.stack := by
  rcases step_sink m with ⟨w, hw⟩ | ⟨hsink, -⟩
  · rw [hw.step.2.2] at hv
    rcases m.sink.written_write w with h | h
    · rw [h] at hv
      exact .inl hv
    · rw [h] at hv
      rcases Array.mem_push.1 hv with hv | rfl
      · exact .inl hv
      · exact .inr hw.mem_stack
  · rw [hsink] at hv
    exact .inl hv

/-- **Arithmetic is exact or faults**, over whole runs, past faults and past the end. On fitting code
    and input every value on the operand stack, in a slot or written is a word; and an operator puts
    the exact result on the stack, or it faults. -/
theorem arithmetic_exact (code : Array Instruction) (input : List Int) (full stuck : Option Nat)
    (hcode : ∀ i ∈ code, i.Fits) (hsize : (code.size : Int) ≤ Word.greatest)
    (hinput : ∀ v ∈ input, Word.InRange v) (k : Nat) :
    (∀ v ∈ ((load code input (.limited full stuck)).after k).stack, Word.InRange v) ∧
      (∀ block ∈ ((load code input (.limited full stuck)).after k).memory.blocks, ∀ v ∈ block,
        Word.InRange v) ∧
      (∀ v ∈ ((load code input (.limited full stuck)).after k).sink.written, Word.InRange v) ∧
      Operates ((load code input (.limited full stuck)).after k) := by
  have hwf (j : Nat) : WellFormed code ((load code input (.limited full stuck)).after j) :=
    wellFormed_after hcode hsize hinput j
  refine ⟨(hwf k).stack, (hwf k).slots, ?_, operates _⟩
  -- Every value written was on the stack of an earlier machine.
  induction k with
  | zero =>
    intro v hv
    exact absurd hv (Array.not_mem_empty v)
  | succ k ih =>
    intro v hv
    rw [after_succ] at hv
    rcases mem_written_step hv with h | h
    · exact ih v h
    · exact (hwf k).stack v h

/-- Divides the least word by -1: the only quotient of words that is none. -/
def leastByMinusOne : Array Instruction :=
  #[.make .lit 0 (-9223372036854775808), .make .lit 0 (-1), .apply (.arith .div)]

theorem least_overflows :
    (∀ i ∈ leastByMinusOne, i.Fits) ∧ (leastByMinusOne.size : Int) ≤ Word.greatest ∧
      (∀ v ∈ ([] : List Int), Word.InRange v) ∧
      (∀ v ∈ ((load leastByMinusOne [] (.limited none none)).after 2).stack, Word.InRange v) ∧
      (∀ v, ¬ ((load leastByMinusOne [] (.limited none none)).after 2).Computed 2 [] v) ∧
      (∃ v, Arith.Result .div (-9223372036854775808) (-1) v ∧ ¬ Word.InRange v) ∧
      (load leastByMinusOne [] (.limited none none)).answer 2 = .fault 2 .overflow := by
  have hcode : ∀ i ∈ leastByMinusOne, i.Fits := by decide
  have hsize : (leastByMinusOne.size : Int) ≤ Word.greatest := by decide
  have hinput : ∀ v ∈ ([] : List Int), Word.InRange v := nofun
  have hfault : (load leastByMinusOne [] (.limited none none)).answer 2 = .fault 2 .overflow := by
    decide
  obtain ⟨hstack, -, -, hop⟩ :=
    arithmetic_exact leastByMinusOne [] none none hcode hsize hinput 2
  obtain ⟨-, hoverflow, -, -⟩ := hop.arith 2 0 .div _ _ [] rfl rfl
  refine ⟨hcode, hsize, hinput, hstack, ?_, hoverflow.1 hfault, hfault⟩
  intro v hv
  cases (congrArg Prod.fst hv).symm.trans hfault

end Machine

end PL0
