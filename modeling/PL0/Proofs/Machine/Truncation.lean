import PL0.Proofs.Machine.Ports
import PL0.Toolchain

/-!
# `Machine.Truncation` — a sink that refuses a value cuts the run short

No step looks at what the sink has taken, or at what it will take. So the run on a sink with limits
is the run on a sink without them, between other ports (`Machine.limit`), up to the first value that
is refused; and there it ends, with a failure that is no fault of the program.

`Sink.refusal?` says after how many values a sink with limits refuses one, and in which of the two
things it does with a value: a write is refused before the line is there, a flush behind it.

Main statement: `Run.truncated`, for arbitrary code and for runs that need not come to an end.
-/

namespace PL0

/-! ## Sinks with and without limits -/

namespace Sink

/-- The text that some values make: each in decimal, on a line of its own. -/
def lines (vs : List Int) : String := String.join (vs.map fun v => s!"{v}\n")

theorem text_eq_lines (s : Sink) : s.text = lines s.written.toList := rfl

/-- A sink that refuses nothing, and has flushed behind every value. -/
structure Free (s : Sink) : Prop where
  notFull : s.fullAfter = none
  notStuck : s.stuckAfter = none
  flushed : s.flushes = s.written.size

/-- The sink with these limits in place of its own. -/
def limit (full stuck : Option Nat) (s : Sink) : Sink :=
  { s with fullAfter := full, stuckAfter := stuck }

/-- How many values a sink with these limits takes before it refuses one, and what it refuses to
    do. A write comes before the flush behind it. -/
def refusal? : Option Nat → Option Nat → Option (Nat × SinkFailure)
  | none, none => none
  | some n, none => some (n, .write)
  | none, some n => some (n, .flush)
  | some n, some k => if n ≤ k then some (n, .write) else some (k, .flush)

/-- The number of lines that are there once the value behind `n` others has been refused. -/
def linesAt (n : Nat) : SinkFailure → Nat
  | .write => n
  | .flush => n + 1

variable {s : Sink} {v : Int} {n : Nat} {e : SinkFailure} {full stuck : Option Nat}

theorem free_unlimited : unlimited.Free := ⟨rfl, rfl, rfl⟩

theorem Free.write (h : s.Free) (v : Int) :
    s.write v = (none, { s with written := s.written.push v, flushes := s.flushes + 1 }) := by
  simp only [Sink.write, h.notFull, h.notStuck, reduceCtorEq, if_false]

theorem Free.after_write (h : s.Free) (v : Int) : (s.write v).2.Free := by
  rw [h.write]
  exact ⟨h.notFull, h.notStuck, by simp only [Array.size_push, h.flushed]⟩

/-- As long as a limit has not been reached the sink takes what one without limits takes. -/
theorem write_limit (h : s.Free) (hroom : ∀ n e, refusal? full stuck = some (n, e) → s.flushes < n)
    (v : Int) : (s.limit full stuck).write v = ((s.write v).1, (s.write v).2.limit full stuck) := by
  have hfull : full ≠ some s.flushes := by
    rintro rfl
    cases stuck with
    | none => exact absurd (hroom _ _ rfl) (Nat.lt_irrefl _)
    | some k =>
      by_cases hk : s.flushes ≤ k
      · exact absurd (hroom _ _ (if_pos hk)) (Nat.lt_irrefl _)
      · exact absurd (hroom _ _ (if_neg hk)) (by omega)
  have hstuck : stuck ≠ some s.flushes := by
    rintro rfl
    cases full with
    | none => exact absurd (hroom _ _ rfl) (Nat.lt_irrefl _)
    | some n =>
      by_cases hn : n ≤ s.flushes
      · exact absurd (hroom _ _ (if_pos hn)) (by omega)
      · exact absurd (hroom _ _ (if_neg hn)) (Nat.lt_irrefl _)
  rw [h.write]
  show (if full = some s.flushes then _ else _) = _
  rw [if_neg hfull]
  show (if stuck = some s.flushes then _ else _) = _
  rw [if_neg hstuck]
  rfl

/-- A sink at its limit refuses the value, and what it has then is the lines that are said to be
    there. -/
theorem write_limit_refused (h : s.Free) (he : refusal? full stuck = some (s.flushes, e)) (v : Int) :
    ((s.limit full stuck).write v).1 = some e ∧
      ((s.limit full stuck).write v).2.written.toList =
        (s.written.toList ++ [v]).take (linesAt s.flushes e) := by
  have hlength : s.flushes = s.written.toList.length := by rw [h.flushed, Array.length_toList]
  have hfull (hf : full = some s.flushes) : (s.limit full stuck).write v =
      (some .write, s.limit full stuck) := if_pos hf
  have hstuck (hf : full ≠ some s.flushes) (hk : stuck = some s.flushes) :
      (s.limit full stuck).write v =
        (some .flush, { s.limit full stuck with written := s.written.push v }) :=
    (if_neg hf).trans (if_pos hk)
  -- What is refused tells which of the limits has been reached.
  have hcases : (e = .write ∧ full = some s.flushes) ∨
      (e = .flush ∧ full ≠ some s.flushes ∧ stuck = some s.flushes) := by
    cases full with
    | none =>
      cases stuck with
      | none => cases he
      | some k =>
        cases he
        exact .inr ⟨rfl, nofun, rfl⟩
    | some n =>
      cases stuck with
      | none =>
        cases he
        exact .inl ⟨rfl, rfl⟩
      | some k =>
        by_cases hn : n ≤ k
        · cases (if_pos hn).symm.trans he
          exact .inl ⟨rfl, rfl⟩
        · cases (if_neg hn).symm.trans he
          refine .inr ⟨rfl, ?_, rfl⟩
          intro hnk
          cases hnk
          exact hn (Nat.le_refl _)
  rcases hcases with ⟨rfl, hf⟩ | ⟨rfl, hf, hk⟩
  · rw [hfull hf]
    refine ⟨rfl, ?_⟩
    show s.written.toList = _
    rw [linesAt, hlength, List.take_left]
  · rw [hstuck hf hk]
    refine ⟨rfl, ?_⟩
    show (s.written.push v).toList = _
    rw [linesAt, hlength, Array.toList_push, List.take_of_length_le (by simp)]

end Sink

/-! ## Steps on a sink with limits -/

namespace Machine

variable {m m' : Machine} {v : Int} {full stuck : Option Nat}

/-- The machine on a sink with these limits. -/
def limit (full stuck : Option Nat) (m : Machine) : Machine :=
  m.mapPorts id (Sink.limit full stuck)

theorem Writes.limit (h : m.Writes v) (full stuck : Option Nat) : (m.limit full stuck).Writes v := h

/-- What one step does to a sink without limits: it is never refused, and writes one value or
    nothing. -/
theorem step_free (h : m.sink.Free) :
    m.step.2.sink.Free ∧ (∀ e, m.step.1 ≠ .refused e) ∧
      (m.step.2.sink.written = m.sink.written ∨
        ∃ v, m.Writes v ∧ m.step.1 = .running ∧
          m.step.2.sink.written = m.sink.written.push v) := by
  rcases step_sink m with ⟨v, hw⟩ | ⟨hsink, hrefused⟩
  · obtain ⟨hanswer, -, hsink⟩ := hw.step
    rw [h.write] at hanswer
    rw [hsink, hanswer]
    exact ⟨h.after_write v, nofun, .inr ⟨v, hw, rfl, by rw [h.write]⟩⟩
  · rw [hsink]
    exact ⟨h, hrefused, .inl rfl⟩

/-- **A step does not look at the limits** of the sink, as long as it does not write beyond them. -/
theorem step_limit (h : m.sink.Free)
    (hroom : ∀ n e, Sink.refusal? full stuck = some (n, e) → m.step.2.sink.written.size ≤ n) :
    (m.limit full stuck).step = (m.step.1, m.step.2.limit full stuck) := by
  refine step_mapPorts fun x i hip hi => ⟨fun _ _ => rfl, fun _ _ _ _ => rfl, ?_⟩
  intro n v rest hop hoff hcell hs
  have hw : m.Writes v :=
    ⟨x, i.level, n, rest, fetch?_eq_some_iff.2 ⟨hip, by rw [hi, ← hop, ← hoff]⟩, hs, hcell⟩
  refine Sink.write_limit h (fun n e he => ?_) v
  have := hroom n e he
  rw [hw.step.2.2, h.write, Array.size_push] at this
  rw [h.flushed]
  omega

end Machine

/-! ## Runs -/

namespace Run

variable {r : Run} {full stuck : Option Nat} {n : Nat} {e : SinkFailure}

/-- The run on a sink with these limits. -/
def limit (full stuck : Option Nat) (r : Run) : Run :=
  { r with machine := r.machine.limit full stuck }

@[simp]
theorem limit_machine : (r.limit full stuck).machine = r.machine.limit full stuck := rfl

/-- A run that is over stays as it is. -/
theorem advance_of_ne_running (h : r.outcome ≠ .running) (n : Nat) : r.advance n = r := by
  cases n with
  | zero => rfl
  | succ n =>
    unfold advance
    split
    · rename_i hrunning
      exact absurd hrunning h
    · rfl

theorem advance_running (h : r.outcome = .running) (n : Nat) :
    r.advance (n + 1) = match r.machine.step with
      | (.running, m) => advance n ⟨.running, r.steps + 1, m⟩
      | (o, m) => ⟨o, r.steps, m⟩ := by
  obtain ⟨o, steps, m⟩ := r
  cases h
  rfl

/-- One more step of a run that goes on. -/
theorem advance_one (h : r.outcome = .running) :
    r.advance 1 = ⟨r.machine.step.1,
      if r.machine.step.1 = .running then r.steps + 1 else r.steps, r.machine.step.2⟩ := by
  rw [advance_running h 0]
  obtain ⟨o, m⟩ := r.machine.step
  cases o <;> rfl

/-- The first step taken apart from the others. -/
theorem advance_succ_left (n : Nat) (r : Run) : r.advance (n + 1) = (r.advance 1).advance n := by
  by_cases h : r.outcome = .running
  · rw [advance_running h n, advance_running h 0]
    obtain ⟨o, m⟩ := r.machine.step
    cases o with
    | running => rfl
    | halted => exact (advance_of_ne_running (by simp) n).symm
    | fault _ _ => exact (advance_of_ne_running (by simp) n).symm
    | refused _ => exact (advance_of_ne_running (by simp) n).symm
  · rw [advance_of_ne_running h, advance_of_ne_running h, advance_of_ne_running h]

/-- The last step taken apart from the others. -/
theorem advance_succ (n : Nat) (r : Run) : r.advance (n + 1) = (r.advance n).advance 1 := by
  induction n generalizing r with
  | zero => rfl
  | succ n ih => rw [advance_succ_left, ih, ← advance_succ_left]

/-- Once a run is over, more steps make no difference. -/
theorem advance_of_le {j k : Nat} (h : (r.advance j).outcome ≠ .running) (hjk : j ≤ k) :
    r.advance k = r.advance j := by
  induction hjk with
  | refl => rfl
  | step _ ih => rw [advance_succ, ih, advance_of_ne_running h]

theorem running_of_le {j k : Nat} (h : (r.advance k).outcome = .running) (hjk : j ≤ k) :
    (r.advance j).outcome = .running := by
  by_contra hj
  exact hj (advance_of_le hj hjk ▸ h)

/-! ### The run on a sink without limits -/

/-- The sink has no limits and has refused nothing. -/
structure Free (r : Run) : Prop where
  sink : r.machine.sink.Free
  accepted : ∀ e, r.outcome ≠ .refused e

theorem free_start (code : Array Instruction) (input : List Int) :
    (start (Machine.load code input .unlimited)).Free := ⟨Sink.free_unlimited, nofun⟩

/-- A step of the run writes one value, with the `STO` that is next, or nothing. -/
theorem Free.advance_one (h : r.Free) : (r.advance 1).Free ∧
    ((r.advance 1).machine.sink.written = r.machine.sink.written ∨
      ∃ v, r.outcome = .running ∧ r.machine.Writes v ∧ (r.advance 1).outcome = .running ∧
        (r.advance 1).machine.sink.written = r.machine.sink.written.push v) := by
  by_cases hr : r.outcome = .running
  · obtain ⟨hfree, hanswer, hwritten⟩ := Machine.step_free h.sink
    rw [Run.advance_one hr]
    refine ⟨⟨hfree, hanswer⟩, hwritten.imp_right ?_⟩
    rintro ⟨v, hw, hrunning, hpush⟩
    exact ⟨v, hr, hw, hrunning, hpush⟩
  · rw [advance_of_ne_running hr]
    exact ⟨h, .inl rfl⟩

theorem Free.advance (h : r.Free) (n : Nat) : (r.advance n).Free := by
  induction n with
  | zero => exact h
  | succ n ih =>
    rw [advance_succ]
    exact ih.advance_one.1

/-- What has been written stays. -/
theorem Free.written_prefix (h : r.Free) {j k : Nat} (hjk : j ≤ k) :
    (r.advance j).machine.sink.written.toList <+: (r.advance k).machine.sink.written.toList := by
  induction hjk with
  | refl => exact List.prefix_rfl
  | @step k _ ih =>
    rw [advance_succ]
    refine ih.trans ?_
    rcases (h.advance k).advance_one.2 with heq | ⟨v, -, -, -, hpush⟩
    · exact heq ▸ List.prefix_rfl
    · rw [hpush, Array.toList_push]
      exact List.prefix_append ..

theorem Free.size_le (h : r.Free) {j k : Nat} (hjk : j ≤ k) :
    (r.advance j).machine.sink.written.size ≤ (r.advance k).machine.sink.written.size := by
  have := (h.written_prefix hjk).length_le
  rwa [Array.length_toList, Array.length_toList] at this

/-- The step that writes the value behind the first `n`. -/
theorem Free.exists_writes (h : r.Free) {j : Nat} (hstart : r.machine.sink.written.size ≤ n)
    (hj : n < (r.advance j).machine.sink.written.size) :
    ∃ k < j, ∃ v, (r.advance k).outcome = .running ∧ (r.advance k).machine.Writes v ∧
      (r.advance k).machine.sink.written.size = n ∧
      (r.advance (k + 1)).machine.sink.written = (r.advance k).machine.sink.written.push v := by
  induction j with
  | zero => exact absurd hstart (Nat.not_le.2 hj)
  | succ j ih =>
    by_cases hlt : n < (r.advance j).machine.sink.written.size
    · obtain ⟨k, hk, hv⟩ := ih hlt
      exact ⟨k, by omega, hv⟩
    · rcases (h.advance j).advance_one.2 with heq | ⟨v, hr, hw, -, hpush⟩
      · rw [advance_succ, heq] at hj
        exact absurd hj hlt
      · refine ⟨j, Nat.lt_succ_self j, v, hr, hw, ?_, by rw [advance_succ, hpush]⟩
        rw [advance_succ, hpush, Array.size_push] at hj
        omega

theorem steps_of_running (n : Nat) (r : Run) (h : (r.advance n).outcome = .running) :
    (r.advance n).steps = r.steps + n := by
  induction n with
  | zero => rfl
  | succ n ih =>
    have hn := running_of_le h (Nat.le_succ n)
    rw [advance_succ, advance_one hn] at h ⊢
    show (if _ then (r.advance n).steps + 1 else _) = _
    rw [if_pos h, ih hn]
    rfl

/-! ### The run on a sink with limits -/

/-- A step of the run does not look at the limits as long as it writes no more than they allow. -/
theorem Free.advance_one_limit (h : r.Free) (hroom : ∀ n e, Sink.refusal? full stuck = some (n, e) →
      (r.advance 1).machine.sink.written.size ≤ n) :
    (r.limit full stuck).advance 1 = (r.advance 1).limit full stuck := by
  by_cases hr : r.outcome = .running
  · rw [Run.advance_one hr] at hroom ⊢
    rw [Run.advance_one (r := r.limit full stuck) hr, limit_machine,
      Machine.step_limit h.sink hroom]
    rfl
  · rw [advance_of_ne_running hr, advance_of_ne_running (r := r.limit full stuck) hr]

theorem Free.advance_limit (h : r.Free) {k : Nat} (hroom : ∀ n e,
      Sink.refusal? full stuck = some (n, e) → (r.advance k).machine.sink.written.size ≤ n) :
    (r.limit full stuck).advance k = (r.advance k).limit full stuck := by
  induction k with
  | zero => rfl
  | succ k ih =>
    have hk := ih fun n e he => Nat.le_trans (h.size_le (Nat.le_succ k)) (hroom n e he)
    rw [advance_succ k (r.limit full stuck), hk, advance_succ k r]
    rw [advance_succ] at hroom
    exact (h.advance k).advance_one_limit hroom

/-- The step that writes beyond a limit is refused. -/
theorem Free.advance_one_refused (h : r.Free) {v : Int} (hr : r.outcome = .running)
    (hw : r.machine.Writes v)
    (he : Sink.refusal? full stuck = some (r.machine.sink.written.size, e)) :
    let r' := (r.limit full stuck).advance 1
    r'.outcome = .refused e ∧ r'.steps = r.steps ∧ r'.machine.input = r.machine.input ∧
      r'.machine.sink.written.toList = (r.machine.sink.written.toList ++ [v]).take
        (Sink.linesAt r.machine.sink.written.size e) := by
  rw [← h.sink.flushed] at he ⊢
  obtain ⟨hanswer, hinput, hsink⟩ := (hw.limit full stuck).step
  obtain ⟨hrefused, hwritten⟩ := Sink.write_limit_refused h.sink he v
  have hanswer' : (r.machine.limit full stuck).step.1 = .refused e := by
    rw [hanswer]
    show ((r.machine.sink.limit full stuck).write v).1.elim Outcome.running .refused = _
    rw [hrefused]
    rfl
  rw [Run.advance_one (r := r.limit full stuck) hr]
  refine ⟨hanswer', if_neg ?_, hinput, ?_⟩
  · rw [limit_machine, hanswer']
    nofun
  · rw [← hwritten]
    exact congrArg (fun s => s.written.toList) hsink

/-- The run on a sink with limits, which refuses a value in the way `e` when it has taken `n`, is cut
    short in the step behind the first `k` of the run on a sink without them. -/
structure Cut (full stuck : Option Nat) (n : Nat) (e : SinkFailure) (free limited : Nat → Run)
    (k : Nat) : Prop where
  /-- Until then the runs are the same, -/
  same : ∀ i ≤ k, limited i = (free i).limit full stuck
  /-- and `n` values have been written. -/
  count : (free k).machine.sink.written.size = n
  /-- The run without limits goes on then, with a `STO` that writes the value behind the first `n`. -/
  running : (free k).outcome = .running ∧ (free k).steps = k
  writes : ∃ v, (free k).machine.Writes v ∧
    ∀ j > k, (free j).machine.sink.written.toList[n]? = some v
  /-- The run with limits ends there, -/
  ended : ∀ i > k, (limited i).outcome = .refused e ∧ (limited i).steps = k
  /-- with the lines of the values before it, and its own if only the flush was refused, -/
  text : ∀ i > k, ∀ j > k, (limited i).machine.sink.text =
    Sink.lines ((free j).machine.sink.written.toList.take (Sink.linesAt n e))
  /-- with the input that the `STO` has found, -/
  input : ∀ i > k, (limited i).machine.input = (free k).machine.input
  /-- and with an internal error. -/
  reported : ∀ i > k, ∀ log,
    (Toolchain.conclude (limited i)).run log = .error (.internal (.sink e)) log

theorem Free.cut (h : r.Free) {j : Nat} (hstart : r.machine.sink.written.size ≤ n)
    (hsteps : r.steps = 0) (he : Sink.refusal? full stuck = some (n, e))
    (hj : n < (r.advance j).machine.sink.written.size) :
    ∃ k < j, Cut full stuck n e (fun i => r.advance i)
      (fun i => (r.limit full stuck).advance i) k := by
  obtain ⟨k, hk, v, hr, hw, hsize, hpush⟩ := h.exists_writes hstart hj
  have hsame (i : Nat) (hi : i ≤ k) :
      (r.limit full stuck).advance i = (r.advance i).limit full stuck := by
    refine h.advance_limit fun n' e' he' => ?_
    cases he.symm.trans he'
    exact hsize ▸ h.size_le hi
  have hvalues (j : Nat) (hj : j > k) :
      (r.advance k).machine.sink.written.toList ++ [v] <+:
        (r.advance j).machine.sink.written.toList := by
    rw [← Array.toList_push, ← hpush]
    exact h.written_prefix hj
  have hlength : (r.advance k).machine.sink.written.toList.length = n := hsize
  obtain ⟨hrefused, hsteps', hinput, hwritten⟩ :=
    (h.advance k).advance_one_refused hr hw (hsize ▸ he)
  have hover (i : Nat) (hi : i > k) :
      (r.limit full stuck).advance i = ((r.advance k).limit full stuck).advance 1 := by
    rw [← hsame k (Nat.le_refl k), ← advance_succ]
    refine advance_of_le ?_ hi
    rw [advance_succ, hsame k (Nat.le_refl k), hrefused]
    nofun
  have hcount := steps_of_running k r hr
  rw [hsteps, Nat.zero_add] at hcount
  refine ⟨k, hk, hsame, hsize, ⟨hr, hcount⟩, ⟨v, hw, ?_⟩, ?_, ?_, ?_, ?_⟩
  · intro j hj
    obtain ⟨rest, hrest⟩ := hvalues j hj
    rw [← hrest, List.append_assoc, List.getElem?_append_right (Nat.le_of_eq hlength), hlength,
      Nat.sub_self]
    rfl
  · intro i hi
    rw [hover i hi]
    exact ⟨hrefused, hsteps'.trans hcount⟩
  · intro i hi j hj
    obtain ⟨rest, hrest⟩ := hvalues j hj
    rw [hover i hi, Sink.text_eq_lines, hwritten, hsize, ← hrest]
    have hle : Sink.linesAt n e ≤ ((r.advance k).machine.sink.written.toList ++ [v]).length := by
      rw [List.length_append, hlength]
      cases e with
      | write => exact Nat.le_succ n
      | flush => exact Nat.le_refl _
    rw [List.take_append_of_le_length hle]
  · intro i hi
    rw [hover i hi]
    exact hinput
  · intro i hi log
    rw [hover i hi]
    unfold Toolchain.conclude
    rw [hrefused]
    rfl

/-- A sink with limits changes nothing about how a run ends, unless it refuses a value. -/
theorem outcome_limited (code : Array Instruction) (input : List Int) (full stuck : Option Nat)
    (k : Nat) :
    let limited := advance k (start (Machine.load code input (.limited full stuck)))
    limited.outcome = (advance k (start (Machine.load code input .unlimited))).outcome ∨
      ∃ n e, Sink.refusal? full stuck = some (n, e) ∧ limited.outcome = .refused e := by
  intro limited
  have h := free_start code input
  by_cases hroom : ∀ n e, Sink.refusal? full stuck = some (n, e) →
      ((start (Machine.load code input .unlimited)).advance k).machine.sink.written.size ≤ n
  · have hsame : limited = _ := h.advance_limit hroom
    rw [hsame]
    exact .inl rfl
  · simp only [not_forall, Nat.not_le] at hroom
    obtain ⟨n, e, he, hlt⟩ := hroom
    obtain ⟨j, hj, hcut⟩ := h.cut (Nat.zero_le n) rfl he hlt
    exact .inr ⟨n, e, he, (hcut.ended k hj).1⟩

/-- **A sink that refuses a value cuts the run short**, whatever the code. The run on a sink with
    limits is the run on a sink without them, step by step, if this one never writes more values
    than the first limit reached allows; otherwise it is cut short at the value that is too many. And
    it never ends with a fault that is not a fault of the run without limits. -/
theorem truncated (code : Array Instruction) (input : List Int) (full stuck : Option Nat) :
    let free k := advance k (start (Machine.load code input .unlimited))
    let limited k := advance k (start (Machine.load code input (.limited full stuck)))
    ((∀ n e, Sink.refusal? full stuck = some (n, e) →
        ∀ k, (free k).machine.sink.written.size ≤ n) →
      ∀ k, limited k = (free k).limit full stuck) ∧
    (∀ n e j, Sink.refusal? full stuck = some (n, e) →
      n < (free j).machine.sink.written.size → ∃ k < j, Cut full stuck n e free limited k) ∧
    ∀ k x f, (limited k).outcome = .fault x f → (free k).outcome = .fault x f := by
  intro free limited
  have h := free_start code input
  have hcut (n : Nat) (e : SinkFailure) (j : Nat) (he : Sink.refusal? full stuck = some (n, e))
      (hj : n < (free j).machine.sink.written.size) :
      ∃ k < j, Cut full stuck n e free limited k := h.cut (Nat.zero_le n) rfl he hj
  refine ⟨?_, hcut, ?_⟩
  · intro hroom k
    exact h.advance_limit fun n e he => hroom n e he k
  · intro k x f hf
    by_cases hover : ∃ n e, Sink.refusal? full stuck = some (n, e) ∧
        n < (free k).machine.sink.written.size
    · obtain ⟨n, e, he, hlt⟩ := hover
      obtain ⟨j, hj, hc⟩ := hcut n e k he hlt
      rw [(hc.ended k hj).1] at hf
      cases hf
    · have hsame : limited k = (free k).limit full stuck :=
        h.advance_limit fun n e he => Nat.le_of_not_lt fun hlt => hover ⟨n, e, he, hlt⟩
      rw [hsame] at hf
      exact hf

/-- Writes two values and halts. -/
def pair : Array Instruction :=
  #[.make .int 0 0, .make .lit 0 7, .make .sto 1 1, .make .lit 0 8, .make .sto 1 1, .make .opr 0 0]

theorem pair_truncated :
    (let free k := advance k (start (Machine.load pair [4] .unlimited))
    let limited k := advance k (start (Machine.load pair [4] (.limited (some 2) (some 2))))
    (free 6).outcome = .halted ∧ (∀ k, (free k).machine.sink.written.size ≤ 2) ∧
      ∀ k, limited k = (free k).limit (some 2) (some 2)) ∧
    (let free k := advance k (start (Machine.load pair [4] .unlimited))
    let limited k := advance k (start (Machine.load pair [4] (.limited (some 1) (some 1))))
    1 < (free 6).machine.sink.written.size ∧
      ∃ k < 6, Cut (some 1) (some 1) 1 .write free limited k) := by
  refine ⟨?_, ?_⟩
  · intro free limited
    have hhalted : (free 6).outcome = .halted := by decide +kernel
    have hsize (k : Nat) : (free k).machine.sink.written.size ≤ 2 := by
      have hle : (free k).machine.sink.written.size ≤ (free (max k 6)).machine.sink.written.size :=
        (free_start pair [4]).size_le (Nat.le_max_left k 6)
      have hover : free (max k 6) = free 6 :=
        advance_of_le (ne_of_eq_of_ne hhalted nofun) (Nat.le_max_right k 6)
      rw [hover] at hle
      exact Nat.le_trans hle (by decide +kernel)
    refine ⟨hhalted, hsize, (truncated pair [4] (some 2) (some 2)).1 ?_⟩
    intro n e he k
    cases he
    exact hsize k
  · intro free limited
    have hlt : 1 < (free 6).machine.sink.written.size := by decide +kernel
    exact ⟨hlt, (truncated pair [4] (some 1) (some 1)).2.1 1 .write 6 rfl hlt⟩

end Run

end PL0
