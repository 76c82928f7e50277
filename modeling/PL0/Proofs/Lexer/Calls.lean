import Mathlib.Logic.Basic
import PL0.Lexer

/-!
# `Lexer.Calls` — what one call does to a lexer

A lexer is pushed characters, told where the text ends, and asked for tokens. The tokens completed
wait in a queue that a push only appends to (`push_queue`, `finish_queue`); so it makes no
difference to anything else when they are taken. What a push leaves pending is one equation
(`push_pending`): nothing if it fails, and else what the character makes of what was pending, of
which `Pending.next_cases` lists the possibilities. And a lexer never lags behind the text: the
lexeme pending ends right in front of the next character, and so does, but for one character, what a
push completes (`push_spec`).
-/

namespace PL0

/-! ## The queue of completed tokens

`queue ts l` is the lexer as it would be if the tokens `ts` had been completed earlier and not been
taken. No call looks at the queue, so this commutes with all of them, helper by helper. -/

namespace Lexer

/-- The lexer with further tokens in front of those that wait to be taken. -/
def queue (ts : List Token) (l : Lexer) : Lexer := { l with ready := ts ++ l.ready }

/-- Taking the tokens and putting them back changes nothing. -/
theorem eq_queue_drain (l : Lexer) : l = l.drain.2.queue l.ready := by
  simp [queue, drain]

/-- There is nothing to take from an empty queue. -/
theorem drain_eq_self {l : Lexer} (h : l.ready = []) : l.drain.2 = l := by
  obtain ⟨pending, cursor, ready⟩ := l
  cases h
  rfl

/-- A lexeme that is completed goes behind the tokens that wait, or it is an error. -/
theorem flush_queue (ts : List Token) (l : Lexer) (i : Nat) (text : String) :
    (l.queue ts).flush i text = ((l.flush i text).1, (l.flush i text).2.queue ts) := by
  unfold flush
  cases token i text with
  | ok t => simp [queue]
  | error e => rfl

/-- So does a mark that is complete by itself. Nothing else that starts reaches the queue. -/
theorem start_queue (ts : List Token) (l : Lexer) (i : Nat) (c : Char) :
    (l.queue ts).start i c = ((l.start i c).1, (l.start i c).2.queue ts) := by
  unfold Lexer.start
  by_cases hlone : isLoneMark c
  · rw [if_pos hlone, if_pos hlone]
    exact flush_queue ts l i _
  · rw [if_neg hlone, if_neg hlone]
    cases Opening.ofChar? c with
    | some o => rfl
    | none =>
      show ite _ _ _ = _
      by_cases hblank : isBlank c
      · simp [hblank]
      · by_cases hletter : Kind.isLetter c
        · simp [hblank, hletter, queue]
        · by_cases hdigit : Kind.isDigit c <;> simp [hblank, hletter, hdigit, queue]

theorem flushThenStart_queue (ts : List Token) (l : Lexer) (i : Nat) (text : String) (j : Nat)
    (c : Char) : (l.queue ts).flushThenStart i text j c =
      ((l.flushThenStart i text j c).1, (l.flushThenStart i text j c).2.queue ts) := by
  unfold flushThenStart
  rw [flush_queue]
  cases l.flush i text with
  | mk e l' =>
    cases e with
    | some e => rfl
    | none => exact start_queue ts l' j c

/-- **A push only appends to the queue**, and what it does besides does not depend on it. -/
theorem push_queue (ts : List Token) (l : Lexer) (c : Char) :
    (l.queue ts).push c = ((l.push c).1, (l.push c).2.queue ts) := by
  obtain ⟨pending, cursor, ready⟩ := l
  -- A character lengthens what is pending, or completes it and starts something itself.
  cases pending with
  | none => exact start_queue ts ⟨.none, cursor + 1, ready⟩ cursor c
  | opening i o =>
    by_cases heq : c == '='
    · simp only [push, queue, heq, if_true]
      exact flush_queue ts ⟨.opening i o, cursor + 1, ready⟩ i _
    · simp only [push, queue, heq]
      exact flushThenStart_queue ts ⟨.opening i o, cursor + 1, ready⟩ i _ cursor c
  | word i letters =>
    by_cases hletter : Kind.isLetter c
    · simp [push, queue, hletter]
    · simp only [push, queue, hletter]
      exact flushThenStart_queue ts ⟨.word i letters, cursor + 1, ready⟩ i _ cursor c
  | digits i run =>
    by_cases hdigit : Kind.isDigit c
    · simp [push, queue, hdigit]
    · simp only [push, queue, hdigit]
      exact flushThenStart_queue ts ⟨.digits i run, cursor + 1, ready⟩ i _ cursor c

/-- The end of the text completes what is pending, and does so alike. -/
theorem finish_queue (ts : List Token) (l : Lexer) :
    (l.queue ts).finish = (l.finish.1, l.finish.2.queue ts) := by
  obtain ⟨pending, cursor, ready⟩ := l
  cases pending with
  | none => rfl
  | opening i o => exact flush_queue ts ⟨.opening i o, cursor, ready⟩ i _
  | word i letters => exact flush_queue ts ⟨.word i letters, cursor, ready⟩ i _
  | digits i run => exact flush_queue ts ⟨.digits i run, cursor, ready⟩ i _

end Lexer

/-! ## What is pending

Between two characters a lexer remembers no more than the start of a lexeme. `fresh` and `next` say
what becomes of it by the character alone, without the queue and without the errors. -/

/-- An opening is the one of its character. -/
theorem Opening.char_of_ofChar? {c : Char} {o : Opening} (h : ofChar? c = some o) :
    o.char = c := by
  unfold ofChar? at h
  split at h <;> cases h <;> rfl

namespace Pending

/-- What the character with the index `i` leaves pending if a lexeme starts with it. -/
def fresh (i : Nat) (c : Char) : Pending :=
  match Opening.ofChar? c with
  | .some o => .opening i o
  | .none =>
    if Kind.isLetter c then .word i (String.singleton c)
    else if Kind.isDigit c then .digits i (String.singleton c)
    else .none

/-- **What the character with the index `i` leaves pending.** It lengthens what is pending, or a
    lexeme starts with it. -/
def next (i : Nat) (c : Char) : Pending → Pending
  | .none => fresh i c
  | .opening _ _ => if c == '=' then .none else fresh i c
  | .word start letters => if Kind.isLetter c then .word start (letters.push c) else fresh i c
  | .digits start run => if Kind.isDigit c then .digits start (run.push c) else fresh i c

/-- **What a character can start:** nothing, an opening, a word or a number. -/
theorem fresh_cases (i : Nat) (c : Char) :
    fresh i c = .none ∨ (∃ o, Opening.ofChar? c = some o ∧ fresh i c = .opening i o) ∨
      (Kind.isLetter c ∧ fresh i c = .word i (String.singleton c)) ∨
      (Kind.isDigit c ∧ fresh i c = .digits i (String.singleton c)) := by
  unfold fresh
  cases Opening.ofChar? c with
  | some o => exact .inr (.inl ⟨o, rfl, rfl⟩)
  | none =>
    by_cases hletter : Kind.isLetter c
    · exact .inr (.inr (.inl ⟨hletter, if_pos hletter⟩))
    · by_cases hdigit : Kind.isDigit c
      · exact .inr (.inr (.inr ⟨hdigit, by simp [hletter, hdigit]⟩))
      · exact .inl (by simp [hletter, hdigit])

/-- **What a character can do to what is pending:** start anew, complete it, or lengthen a run. -/
theorem next_cases (i : Nat) (c : Char) (p : Pending) :
    p.next i c = fresh i c ∨ p.next i c = .none ∨
      (∃ start letters, p = .word start letters ∧ Kind.isLetter c ∧
        p.next i c = .word start (letters.push c)) ∨
      (∃ start run, p = .digits start run ∧ Kind.isDigit c ∧
        p.next i c = .digits start (run.push c)) := by
  cases p with
  | none => exact .inl rfl
  | opening start o =>
    by_cases heq : c == '='
    · exact .inr (.inl (if_pos heq))
    · exact .inl (if_neg heq)
  | word start letters =>
    by_cases hletter : Kind.isLetter c
    · exact .inr (.inr (.inl ⟨start, letters, rfl, hletter, if_pos hletter⟩))
    · exact .inl (if_neg hletter)
  | digits start run =>
    by_cases hdigit : Kind.isDigit c
    · exact .inr (.inr (.inr ⟨start, run, rfl, hdigit, if_pos hdigit⟩))
    · exact .inl (if_neg hdigit)

/-- A mark that is complete by itself leaves nothing pending, and neither does a blank. -/
theorem fresh_of_isLoneMark {c : Char} (h : Lexer.isLoneMark c) (i : Nat) :
    fresh i c = .none := by
  simp only [Lexer.isLoneMark, List.contains_eq_mem, decide_eq_true_eq, List.mem_cons,
    List.not_mem_nil, or_false] at h
  rcases h with rfl | rfl | rfl | rfl | rfl | rfl | rfl | rfl | rfl | rfl | rfl | rfl | rfl <;> rfl

theorem fresh_of_isBlank {c : Char} (h : Lexer.isBlank c) (i : Nat) : fresh i c = .none := by
  simp only [Lexer.isBlank, Bool.or_eq_true, beq_iff_eq] at h
  rcases h with (rfl | rfl) | rfl <;> rfl

end Pending

namespace Lexer

/-- What has been completed is no longer pending, be it a token or an error. -/
theorem flush_pending (l : Lexer) (i : Nat) (text : String) :
    (l.flush i text).2.pending = .none := by
  unfold flush
  cases token i text <;> rfl

/-- A character that starts something leaves it pending unless it fails. The branches are those of
    the lexer, in its order; `fresh` has them in another one. -/
theorem start_pending {l : Lexer} (hl : l.pending = .none) (i : Nat) (c : Char) :
    (l.start i c).2.pending = if (l.start i c).1.isSome then .none else .fresh i c := by
  unfold Lexer.start
  by_cases hlone : isLoneMark c
  · rw [if_pos hlone, flush_pending, Pending.fresh_of_isLoneMark hlone, ite_self]
  rw [if_neg hlone]
  by_cases hblank : isBlank c
  · have hopening : Opening.ofChar? c = none := by
      simp only [isBlank, Bool.or_eq_true, beq_iff_eq] at hblank
      rcases hblank with (rfl | rfl) | rfl <;> rfl
    simp [hopening, hblank, hl, Pending.fresh_of_isBlank hblank]
  unfold Pending.fresh
  cases Opening.ofChar? c with
  | some o => rfl
  | none =>
    by_cases hletter : Kind.isLetter c
    · simp [hblank, hletter]
    · by_cases hdigit : Kind.isDigit c <;> simp [hblank, hletter, hdigit, hl]

/-- Completing what is pending can fail as well, and then the character starts nothing. -/
theorem flushThenStart_pending (l : Lexer) (i : Nat) (text : String) (j : Nat) (c : Char) :
    (l.flushThenStart i text j c).2.pending =
      if (l.flushThenStart i text j c).1.isSome then .none else .fresh j c := by
  have hpending := l.flush_pending i text
  unfold flushThenStart
  cases hflush : l.flush i text with
  | mk e l' =>
    rw [hflush] at hpending
    cases e with
    | some e => exact hpending
    | none => exact start_pending hpending j c

/-- **A push leaves nothing pending if it fails**, and else what the character makes of it. -/
theorem push_pending (l : Lexer) (c : Char) :
    (l.push c).2.pending = if (l.push c).1.isSome then .none else l.pending.next l.cursor c := by
  obtain ⟨pending, cursor, ready⟩ := l
  cases pending with
  | none => exact start_pending (l := ⟨.none, cursor + 1, ready⟩) rfl cursor c
  | opening start o =>
    by_cases heq : c == '='
    · simp only [push, Pending.next, heq, if_true]
      rw [flush_pending, ite_self]
    · simp only [push, Pending.next, heq]
      exact flushThenStart_pending ⟨.opening start o, cursor + 1, ready⟩ start _ cursor c
  | word start letters =>
    by_cases hletter : Kind.isLetter c
    · simp [push, Pending.next, hletter]
    · simp only [push, Pending.next, hletter]
      exact flushThenStart_pending ⟨.word start letters, cursor + 1, ready⟩ start _ cursor c
  | digits start run =>
    by_cases hdigit : Kind.isDigit c
    · simp [push, Pending.next, hdigit]
    · simp only [push, Pending.next, hdigit]
      exact flushThenStart_pending ⟨.digits start run, cursor + 1, ready⟩ start _ cursor c

/-- At the end of the text nothing stays pending. -/
theorem finish_pending (l : Lexer) : l.finish.2.pending = .none := by
  obtain ⟨pending, cursor, ready⟩ := l
  cases pending with
  | none => rfl
  | opening start o => exact flush_pending _ start _
  | word start letters => exact flush_pending _ start letters
  | digits start run => exact flush_pending _ start run

end Lexer

/-! ## Where a lexer stands

The cursor counts the characters. A lexeme that is pending has been lengthened by each of them since
its start, so its end is the cursor; this is the invariant that a push keeps. -/

namespace Pending

/-- What is pending ends right in front of the character with the index `i`. -/
def EndsAt (i : Nat) : Pending → Prop
  | .none => True
  | .opening start _ => start + 1 = i
  | .word start letters => start + letters.length = i
  | .digits start run => start + run.length = i

/-- What starts with a character ends behind it. -/
theorem endsAt_fresh (i : Nat) (c : Char) : (fresh i c).EndsAt (i + 1) := by
  rcases fresh_cases i c with h | ⟨o, -, h⟩ | ⟨-, h⟩ | ⟨-, h⟩
  · rw [h]
    trivial
  · rw [h]
    exact rfl
  · rw [h, EndsAt, String.length_singleton]
  · rw [h, EndsAt, String.length_singleton]

/-- The next character moves the end by one. -/
theorem EndsAt.next {i : Nat} {p : Pending} (h : p.EndsAt i) (c : Char) :
    (p.next i c).EndsAt (i + 1) := by
  rcases next_cases i c p with hnext | hnext | ⟨start, letters, rfl, -, hnext⟩ |
    ⟨start, run, rfl, -, hnext⟩
  · rw [hnext]
    exact endsAt_fresh i c
  · rw [hnext]
    trivial
  · have hi : start + letters.length = i := h
    rw [hnext, EndsAt, String.length_push]
    omega
  · have hi : start + run.length = i := h
    rw [hnext, EndsAt, String.length_push]
    omega

end Pending

/-- The index behind the last character of a token. -/
def Token.stop (t : Token) : Nat := t.index + t.text.length

namespace Lexer

variable {l : Lexer} {i : Nat}

/-- A completed token ends where its text does. There is none if the text is no token. -/
theorem flush_spec (l : Lexer) (i : Nat) (text : String) :
    (l.flush i text).2.cursor = l.cursor ∧ ∀ t ∈ (l.flush i text).2.ready,
      t ∈ l.ready ∨ t.stop = i + text.length ∧ (l.flush i text).1 = none := by
  unfold flush token
  cases Kind.classify text with
  | none => exact ⟨rfl, fun t ht => .inl ht⟩
  | some kind =>
    dsimp only
    by_cases hrange : kind = .number ∧ Decimal.word? text = none
    · rw [if_pos hrange]
      exact ⟨rfl, fun t ht => .inl ht⟩
    · rw [if_neg hrange]
      refine ⟨rfl, fun t ht => ?_⟩
      rcases List.mem_append.1 ht with ht | ht
      · exact .inl ht
      · rw [List.mem_singleton.1 ht]
        exact .inr ⟨rfl, rfl⟩

/-- Only a mark that is complete by itself is a token at once. -/
theorem start_spec (l : Lexer) (i : Nat) (c : Char) :
    (l.start i c).2.cursor = l.cursor ∧ ∀ t ∈ (l.start i c).2.ready,
      t ∈ l.ready ∨ t.stop = i + 1 ∧ (l.start i c).1 = none := by
  unfold Lexer.start
  by_cases hlone : isLoneMark c
  · rw [if_pos hlone]
    simpa using l.flush_spec i (String.singleton c)
  rw [if_neg hlone]
  cases Opening.ofChar? c with
  | some o => exact ⟨rfl, fun t ht => .inl ht⟩
  | none =>
  dsimp only
  by_cases hblank : isBlank c
  · rw [if_pos hblank]
    exact ⟨rfl, fun t ht => .inl ht⟩
  rw [if_neg hblank]
  by_cases hletter : Kind.isLetter c
  · rw [if_pos hletter]
    exact ⟨rfl, fun t ht => .inl ht⟩
  rw [if_neg hletter]
  by_cases hdigit : Kind.isDigit c
  · rw [if_pos hdigit]
    exact ⟨rfl, fun t ht => .inl ht⟩
  · rw [if_neg hdigit]
    exact ⟨rfl, fun t ht => .inl ht⟩

/-- Two tokens may be completed by one character: the one pending, and a mark. -/
theorem flushThenStart_spec (l : Lexer) (i : Nat) (text : String) (j : Nat) (c : Char) :
    (l.flushThenStart i text j c).2.cursor = l.cursor ∧
      ∀ t ∈ (l.flushThenStart i text j c).2.ready, t ∈ l.ready ∨ t.stop = i + text.length ∨
        t.stop = j + 1 ∧ (l.flushThenStart i text j c).1 = none := by
  obtain ⟨hcursor, hready⟩ := l.flush_spec i text
  unfold flushThenStart
  cases hflush : l.flush i text with
  | mk e l' =>
    rw [hflush] at hcursor hready
    cases e with
    | some e => exact ⟨hcursor, fun t ht => (hready t ht).imp_right fun h => .inl h.1⟩
    | none =>
      obtain ⟨hcursor', hready'⟩ := l'.start_spec j c
      refine ⟨hcursor'.trans hcursor, fun t ht => ?_⟩
      rcases hready' t ht with ht | ht
      · exact (hready t ht).imp_right fun h => .inl h.1
      · exact .inr (.inr ht)

/-- **A push keeps up with the text:** the lexeme pending ends at the next character, and a token
    completed ends there or one character earlier, the latter if the push fails. -/
theorem push_spec (hl : l.pending.EndsAt l.cursor) (c : Char) :
    (l.push c).2.pending.EndsAt (l.cursor + 1) ∧ (l.push c).2.cursor = l.cursor + 1 ∧
      ∀ t ∈ (l.push c).2.ready, t ∈ l.ready ∨ t.stop = l.cursor ∨
        t.stop = l.cursor + 1 ∧ (l.push c).1 = none := by
  have hends : (l.push c).2.pending.EndsAt (l.cursor + 1) := by
    rw [push_pending]
    cases (l.push c).1 with
    | some e => trivial
    | none => exact hl.next c
  refine ⟨hends, ?_⟩
  -- What is completed depends on what was pending; the indices of its start and its end are given
  -- by `hl`.
  obtain ⟨pending, cursor, ready⟩ := l
  cases pending with
  | none =>
    obtain ⟨hcursor, hready⟩ := start_spec ⟨.none, cursor + 1, ready⟩ cursor c
    exact ⟨hcursor, fun t ht => (hready t ht).imp_right .inr⟩
  | opening start o =>
    obtain rfl : start + 1 = cursor := hl
    by_cases heq : c == '='
    · simp only [push, heq, if_true]
      have hspec := flush_spec ⟨.opening start o, start + 1 + 1, ready⟩ start
        (String.ofList [o.char, '='])
      rw [String.length_ofList] at hspec
      exact ⟨hspec.1, fun t ht => (hspec.2 t ht).imp_right .inr⟩
    · simp only [push, heq, Bool.false_eq_true, if_false]
      have hspec := flushThenStart_spec ⟨.opening start o, start + 1 + 1, ready⟩ start
        (String.singleton o.char) (start + 1) c
      rwa [String.length_singleton] at hspec
  | word start letters =>
    obtain rfl : start + letters.length = cursor := hl
    by_cases hletter : Kind.isLetter c
    · simp only [push, hletter, if_true]
      exact ⟨trivial, fun t ht => .inl ht⟩
    · simp only [push, hletter, Bool.false_eq_true, if_false]
      exact flushThenStart_spec ⟨.word start letters, start + letters.length + 1, ready⟩ start
        letters (start + letters.length) c
  | digits start run =>
    obtain rfl : start + run.length = cursor := hl
    by_cases hdigit : Kind.isDigit c
    · simp only [push, hdigit, if_true]
      exact ⟨trivial, fun t ht => .inl ht⟩
    · simp only [push, hdigit, Bool.false_eq_true, if_false]
      exact flushThenStart_spec ⟨.digits start run, start + run.length + 1, ready⟩ start run
        (start + run.length) c

/-- The last token ends where the text does. -/
theorem finish_spec (hl : l.pending.EndsAt l.cursor) :
    l.finish.2.cursor = l.cursor ∧
      ∀ t ∈ l.finish.2.ready, t ∈ l.ready ∨ t.stop = l.cursor := by
  have hflush (start : Nat) (text : String) (h : start + text.length = l.cursor) :
      (l.flush start text).2.cursor = l.cursor ∧
        ∀ t ∈ (l.flush start text).2.ready, t ∈ l.ready ∨ t.stop = l.cursor := by
    obtain ⟨hcursor, hready⟩ := l.flush_spec start text
    exact ⟨hcursor, fun t ht => (hready t ht).imp_right fun hstop => hstop.1.trans h⟩
  obtain ⟨pending, cursor, ready⟩ := l
  cases pending with
  | none => exact ⟨rfl, fun t ht => .inl ht⟩
  | opening start o =>
    refine hflush start (String.singleton o.char) ?_
    rw [String.length_singleton]
    exact hl
  | word start letters => exact hflush start letters hl
  | digits start run => exact hflush start run hl

end Lexer

end PL0
