import PL0.Proofs.Lexer.Scanning

/-!
# `Lexer.Restart` — a lexer after an error

A lexer takes calls in any order: characters are pushed, the end of a text is announced, tokens are
asked for. What is pending is at any time the end of what has been pushed (`Lexer.Stands`), and every
call keeps it so (`Stands.call`).

A push that fails leaves nothing pending, wherever in the push the error arose, and no more does a
finish. All that then distinguishes the lexer from a new one is the number of characters pushed and
the queue of completed tokens, and neither has an influence on later calls: further on in a text a
lexer does the same (`call_shift`), and tokens in the queue are only taken before others
(`call_queue`).

Main statement: `Lexer.restarts`.
-/

namespace PL0

namespace Lexer

/-! ## Calls -/

/-- A request to a lexer. -/
inductive Call where
  | push (c : Char)
  | finish
  | next
deriving DecidableEq

/-- What a request is answered: the error of a push or a finish, or the token taken, if there is
    any. -/
inductive Answer where
  | outcome (e : Option LexError)
  | taken (t : Option Token)
deriving DecidableEq

def call (l : Lexer) : Call → Answer × Lexer
  | .push c => (.outcome (l.push c).1, (l.push c).2)
  | .finish => (.outcome l.finish.1, l.finish.2)
  | .next =>
    match l.next? with
    | some (t, l) => (.taken (some t), l)
    | none => (.taken none, l)

/-- The lexer after the calls. -/
def after (l : Lexer) : List Call → Lexer
  | [] => l
  | k :: ks => (l.call k).2.after ks

/-- What the calls are answered, one after the other. -/
def answers (l : Lexer) : List Call → List Answer
  | [] => []
  | k :: ks => (l.call k).1 :: (l.call k).2.answers ks

/-- The call fails, or the text ends with it. -/
def Call.Ends (l : Lexer) (k : Call) : Prop :=
  k = .finish ∨ ∃ e, (l.call k).1 = .outcome (some e)

def Call.chars : Call → List Char
  | push c => [c]
  | finish => []
  | next => []

/-- The characters pushed, those whose push fails among them. -/
def pushed (ks : List Call) : List Char := ks.flatMap Call.chars

theorem after_append (l : Lexer) (ks : List Call) (k : Call) :
    l.after (ks ++ [k]) = ((l.after ks).call k).2 := by
  induction ks generalizing l with
  | nil => rfl
  | cons k' ks ih => exact ih _

end Lexer

/-! ## What is pending -/

namespace Pending

/-- The index of the first character pending. -/
def start? : Pending → Option Nat
  | .none => .none
  | .opening start _ => some start
  | .word start _ => some start
  | .digits start _ => some start

/-- The characters pending are the last ones pushed. -/
def Holds (pushed : List Char) (p : Pending) : Prop :=
  ∀ start ∈ p.start?, p.text.toList = pushed.drop start

variable {p : Pending} {pushed : List Char}

theorem holds_fresh (pushed : List Char) (c : Char) :
    (fresh pushed.length c).Holds (pushed ++ [c]) := by
  have hdrop : (pushed ++ [c]).drop pushed.length = [c] := by simp
  rcases fresh_cases pushed.length c with h | ⟨o, ho, h⟩ | ⟨-, h⟩ | ⟨-, h⟩
  · rw [h]
    rintro _ ⟨⟩
  · rw [h]
    rintro _ ⟨⟩
    show (String.singleton o.char).toList = _
    rw [hdrop, Opening.char_of_ofChar? ho, String.toList_singleton]
  · rw [h]
    rintro _ ⟨⟩
    show (String.singleton c).toList = _
    rw [hdrop, String.toList_singleton]
  · rw [h]
    rintro _ ⟨⟩
    show (String.singleton c).toList = _
    rw [hdrop, String.toList_singleton]

/-- A character behind a run is pending with it. -/
theorem toList_push_eq_drop {text : String} {start : Nat}
    (hends : start + text.length = pushed.length) (h : text.toList = pushed.drop start) (c : Char) :
    (text.push c).toList = (pushed ++ [c]).drop start := by
  rw [String.toList_push, h, List.drop_append_of_le_length (by omega)]

theorem Holds.next (hends : p.EndsAt pushed.length) (h : p.Holds pushed) (c : Char) :
    (p.next pushed.length c).Holds (pushed ++ [c]) := by
  rcases next_cases pushed.length c p with hnext | hnext | ⟨start, letters, rfl, -, hnext⟩ |
    ⟨start, run, rfl, -, hnext⟩
  · rw [hnext]
    exact holds_fresh pushed c
  · rw [hnext]
    rintro _ ⟨⟩
  · rw [hnext]
    rintro _ ⟨⟩
    exact toList_push_eq_drop hends (h start rfl) c
  · rw [hnext]
    rintro _ ⟨⟩
    exact toList_push_eq_drop hends (h start rfl) c

theorem formed_fresh (i : Nat) (c : Char) : (fresh i c).Formed := by
  rcases fresh_cases i c with h | ⟨o, -, h⟩ | ⟨hletter, h⟩ | ⟨hdigit, h⟩
  · rw [h]
    trivial
  · rw [h]
    trivial
  · rw [h]
    exact IsRun.singleton hletter
  · rw [h]
    exact IsRun.singleton hdigit

theorem Formed.next (h : p.Formed) (i : Nat) (c : Char) : (p.next i c).Formed := by
  rcases next_cases i c p with hnext | hnext | ⟨start, letters, rfl, hletter, hnext⟩ |
    ⟨start, run, rfl, hdigit, hnext⟩
  · rw [hnext]
    exact formed_fresh i c
  · rw [hnext]
    trivial
  · rw [hnext]
    exact IsRun.push h hletter
  · rw [hnext]
    exact IsRun.push h hdigit

theorem Formed.text_eq_empty_iff (h : p.Formed) : p.text = "" ↔ p = .none := by
  have hrun {f : Char → Bool} {text : String} (hr : IsRun f text) : text ≠ "" :=
    fun hempty => hr.ne_nil (String.toList_eq_nil_iff.2 hempty)
  cases p with
  | none => exact iff_of_true rfl rfl
  | opening start o => simp [Pending.text]
  | word start letters => simpa [Pending.text] using hrun h
  | digits start run => simpa [Pending.text] using hrun h

end Pending

/-! ## The invariant of all calls -/

namespace Lexer

/-- **The lexer stands behind the characters pushed.** -/
structure Stands (pushed : List Char) (l : Lexer) : Prop where
  cursor : l.cursor = pushed.length
  /-- The lexeme pending reaches up to the last character pushed, -/
  ends : l.pending.EndsAt pushed.length
  /-- is what has been pushed from its start on, -/
  holds : l.pending.Holds pushed
  /-- and has letters only or digits only, unless it is `<`, `>` or `:`. -/
  formed : l.pending.Formed
  /-- The tokens in the queue end in front of the next character. -/
  queued : ∀ t ∈ l.ready, t.stop ≤ pushed.length

variable {l l' : Lexer} {cs : List Char} {k : Call} {n : Nat}

theorem stands_empty : empty.Stands [] where
  cursor := rfl
  ends := trivial
  holds := by rintro _ ⟨⟩
  formed := trivial
  queued := by rintro _ ⟨⟩

/-- With nothing pending, only the queue is to be looked at. -/
theorem stands_of_none (hcursor : l.cursor = cs.length) (h : l.pending = .none)
    (hqueued : ∀ t ∈ l.ready, t.stop ≤ cs.length) : l.Stands cs := by
  refine ⟨hcursor, ?_, ?_, ?_, hqueued⟩
  · rw [h]
    trivial
  · rw [h]
    rintro _ ⟨⟩
  · rw [h]
    trivial

theorem Stands.push (h : l.Stands cs) (c : Char) : (l.push c).2.Stands (cs ++ [c]) := by
  have hends : l.pending.EndsAt l.cursor := h.cursor ▸ h.ends
  obtain ⟨hends', hcursor, hready⟩ := push_spec hends c
  have hpending := l.push_pending c
  rw [h.cursor] at hpending hcursor hready
  have hlength : (cs ++ [c]).length = cs.length + 1 := List.length_append
  have hqueued : ∀ t ∈ (l.push c).2.ready, t.stop ≤ (cs ++ [c]).length := by
    intro t ht
    rcases hready t ht with ht | hstop | ⟨hstop, -⟩
    · have := h.queued t ht
      omega
    · omega
    · omega
  cases hfail : (l.push c).1 with
  | some e =>
    rw [hfail] at hpending
    exact stands_of_none (hcursor.trans hlength.symm) hpending hqueued
  | none =>
    rw [hfail] at hpending
    refine ⟨hcursor.trans hlength.symm, ?_, ?_, ?_, hqueued⟩
    · rw [hlength, ← h.cursor]
      exact hends'
    · rw [hpending]
      exact h.holds.next h.ends c
    · rw [hpending]
      exact h.formed.next _ c

/-- The character whose push fails lies behind all tokens in the queue. -/
theorem Stands.stop_lt (h : l.Stands cs) {c : Char} {e : LexError} (hfail : (l.push c).1 = some e) :
    ∀ t ∈ (l.push c).2.ready, t.stop < (l.push c).2.cursor := by
  have hends : l.pending.EndsAt l.cursor := h.cursor ▸ h.ends
  obtain ⟨-, hcursor, hready⟩ := push_spec hends c
  intro t ht
  rw [hcursor]
  rcases hready t ht with ht | hstop | ⟨-, hnone⟩
  · rw [h.cursor]
    exact Nat.lt_succ_of_le (h.queued t ht)
  · omega
  · rw [hfail] at hnone
    cases hnone

theorem Stands.finish (h : l.Stands cs) : l.finish.2.Stands cs := by
  have hends : l.pending.EndsAt l.cursor := h.cursor ▸ h.ends
  obtain ⟨hcursor, hready⟩ := finish_spec hends
  refine stands_of_none (hcursor.trans h.cursor) l.finish_pending fun t ht => ?_
  rcases hready t ht with ht | hstop
  · exact h.queued t ht
  · exact (hstop.trans h.cursor).le

/-- **Every call keeps the invariant.** -/
theorem Stands.call (h : l.Stands cs) (k : Call) : (l.call k).2.Stands (cs ++ k.chars) := by
  cases k with
  | push c => exact h.push c
  | finish =>
    rw [Call.chars, List.append_nil]
    exact h.finish
  | next =>
    rw [Call.chars, List.append_nil]
    obtain ⟨pending, cursor, ready⟩ := l
    cases ready with
    | nil => exact h
    | cons t ready =>
      refine ⟨h.cursor, h.ends, h.holds, h.formed, fun u hu => ?_⟩
      exact h.queued u (List.mem_cons_of_mem t hu)

theorem Stands.after (h : l.Stands cs) (ks : List Call) :
    (l.after ks).Stands (cs ++ pushed ks) := by
  induction ks generalizing l cs with
  | nil => simpa [pushed, after] using h
  | cons k ks ih =>
    have hrest := ih (h.call k)
    rw [List.append_assoc] at hrest
    exact hrest

end Lexer

/-! ## Further on in a text -/

/-- The token `n` characters further on. -/
def Token.shift (n : Nat) (t : Token) : Token := { t with index := n + t.index }

def LexError.shift (n : Nat) (e : LexError) : LexError := { e with index := n + e.index }

def Pending.shift (n : Nat) : Pending → Pending
  | .none => .none
  | .opening start o => .opening (n + start) o
  | .word start letters => .word (n + start) letters
  | .digits start run => .digits (n + start) run

namespace Lexer

def Answer.shift (n : Nat) : Answer → Answer
  | outcome e => outcome (e.map (LexError.shift n))
  | taken t => taken (t.map (Token.shift n))

def shift (n : Nat) (l : Lexer) : Lexer :=
  ⟨l.pending.shift n, n + l.cursor, l.ready.map (Token.shift n)⟩

/-- An error and a lexer, both `n` characters further on. -/
def shiftBoth (n : Nat) (r : Option LexError × Lexer) : Option LexError × Lexer :=
  (r.1.map (LexError.shift n), r.2.shift n)

variable (n : Nat) (l : Lexer)

theorem flush_shift (i : Nat) (text : String) :
    (l.shift n).flush (n + i) text = shiftBoth n (l.flush i text) := by
  unfold flush token
  cases Kind.classify text with
  | none => rfl
  | some kind =>
    dsimp only
    by_cases hrange : kind = .number ∧ Decimal.word? text = none
    · rw [if_pos hrange, if_pos hrange]
      rfl
    · rw [if_neg hrange, if_neg hrange]
      simp [shiftBoth, shift, Token.shift, Pending.shift]

theorem start_shift (i : Nat) (c : Char) :
    (l.shift n).start (n + i) c = shiftBoth n (l.start i c) := by
  unfold Lexer.start
  by_cases hlone : isLoneMark c
  · rw [if_pos hlone, if_pos hlone]
    exact l.flush_shift n i _
  rw [if_neg hlone, if_neg hlone]
  cases Opening.ofChar? c with
  | some o => rfl
  | none =>
    by_cases hblank : isBlank c
    · simp [hblank, shiftBoth]
    · by_cases hletter : Kind.isLetter c
      · simp [hblank, hletter, shiftBoth, shift, Pending.shift]
      · by_cases hdigit : Kind.isDigit c <;>
          simp [hblank, hletter, hdigit, shiftBoth, shift, Pending.shift, LexError.shift]

theorem flushThenStart_shift (i : Nat) (text : String) (j : Nat) (c : Char) :
    (l.shift n).flushThenStart (n + i) text (n + j) c =
      shiftBoth n (l.flushThenStart i text j c) := by
  unfold flushThenStart
  rw [flush_shift]
  cases l.flush i text with
  | mk e l' =>
    cases e with
    | some e => rfl
    | none => exact l'.start_shift n j c

theorem push_shift (c : Char) : (l.shift n).push c = shiftBoth n (l.push c) := by
  obtain ⟨pending, cursor, ready⟩ := l
  cases pending with
  | none => exact start_shift n ⟨.none, cursor + 1, ready⟩ cursor c
  | opening start o =>
    by_cases heq : c == '='
    · simp only [push, shift, Pending.shift, heq, if_true]
      exact flush_shift n ⟨.opening start o, cursor + 1, ready⟩ start _
    · simp only [push, shift, Pending.shift, heq]
      exact flushThenStart_shift n ⟨.opening start o, cursor + 1, ready⟩ start _ cursor c
  | word start letters =>
    by_cases hletter : Kind.isLetter c
    · simp only [push, shift, Pending.shift, hletter]
      rfl
    · simp only [push, shift, Pending.shift, hletter]
      exact flushThenStart_shift n ⟨.word start letters, cursor + 1, ready⟩ start _ cursor c
  | digits start run =>
    by_cases hdigit : Kind.isDigit c
    · simp only [push, shift, Pending.shift, hdigit]
      rfl
    · simp only [push, shift, Pending.shift, hdigit]
      exact flushThenStart_shift n ⟨.digits start run, cursor + 1, ready⟩ start _ cursor c

theorem finish_shift : (l.shift n).finish = shiftBoth n l.finish := by
  obtain ⟨pending, cursor, ready⟩ := l
  cases pending with
  | none => rfl
  | opening start o => exact flush_shift n ⟨.opening start o, cursor, ready⟩ start _
  | word start letters => exact flush_shift n ⟨.word start letters, cursor, ready⟩ start letters
  | digits start run => exact flush_shift n ⟨.digits start run, cursor, ready⟩ start run

/-- **Further on in a text a lexer does the same**, further on. -/
theorem call_shift (k : Call) :
    (l.shift n).call k = ((l.call k).1.shift n, (l.call k).2.shift n) := by
  cases k with
  | push c =>
    rw [call, push_shift]
    rfl
  | finish =>
    rw [call, finish_shift]
    rfl
  | next =>
    obtain ⟨pending, cursor, ready⟩ := l
    cases ready <;> rfl

end Lexer

/-! ## Behind a queue of tokens -/

namespace Lexer

/-- What a lexer `n` characters further on answers where the tokens `ts` wait in front of those that
    it completes: whoever asks for a token gets the first of them, and all other calls are answered
    as if they were not there. -/
def answersBehind (n : Nat) (l : Lexer) (ts : List Token) : List Call → List Answer
  | [] => []
  | k :: ks =>
    match k, ts with
    | .next, t :: ts => .taken (some t) :: answersBehind n l ts ks
    | k, ts => (l.call k).1.shift n :: answersBehind n (l.call k).2 ts ks

variable {l : Lexer} {k : Call} {n : Nat} {ts : List Token}

/-- **The queue is only there to be taken from.** -/
theorem call_queue (hk : k ≠ .next) (ts : List Token) (l : Lexer) :
    (l.queue ts).call k = ((l.call k).1, (l.call k).2.queue ts) := by
  cases k with
  | push c =>
    rw [call, push_queue]
    rfl
  | finish =>
    rw [call, finish_queue]
    rfl
  | next => exact absurd rfl hk

theorem answers_queue (n : Nat) (l : Lexer) (ts : List Token) (ks : List Call) :
    ((l.shift n).queue ts).answers ks = l.answersBehind n ts ks := by
  induction ks generalizing l ts with
  | nil => rfl
  | cons k ks ih =>
    have hother (hk : k ≠ .next) : ((l.shift n).queue ts).answers (k :: ks) =
        (l.call k).1.shift n :: (l.call k).2.answersBehind n ts ks := by
      rw [answers, call_queue hk, call_shift, ih]
    cases k with
    | push c => exact hother (by simp)
    | finish => exact hother (by simp)
    | next =>
      cases ts with
      | cons t ts => exact congrArg (Answer.taken (some t) :: ·) (ih l ts)
      | nil =>
        show (l.shift n).answers (.next :: ks) = _
        rw [answers, call_shift]
        exact congrArg (((l.call .next).1.shift n) :: ·) (ih (l.call .next).2 [])

/-- An answer is a token from the queue, or it is given further on. -/
theorem mem_answersBehind {a : Answer} {ks : List Call} (h : a ∈ l.answersBehind n ts ks) :
    (∃ t ∈ ts, a = .taken (some t)) ∨ ∃ b : Answer, a = b.shift n := by
  induction ks generalizing l ts with
  | nil => cases h
  | cons k ks ih =>
    unfold answersBehind at h
    split at h
    · rcases List.mem_cons.1 h with rfl | h
      · exact .inl ⟨_, List.mem_cons_self .., rfl⟩
      · rcases ih h with ⟨t, ht, rfl⟩ | hshift
        · exact .inl ⟨t, List.mem_cons_of_mem _ ht, rfl⟩
        · exact .inr hshift
    · rcases List.mem_cons.1 h with rfl | h
      · exact .inr ⟨_, rfl⟩
      · exact ih h

/-- Tokens answered come from the queue or were completed further on. -/
theorem taken_mem {t : Token} {ks : List Call}
    (h : .taken (some t) ∈ l.answersBehind n ts ks) : t ∈ ts ∨ n ≤ t.index := by
  rcases mem_answersBehind h with ⟨u, hu, heq⟩ | ⟨b, heq⟩
  · cases heq
    exact .inl hu
  · obtain e | _ | u := b
    · cases heq
    · cases heq
    · cases heq
      exact .inr (Nat.le_add_right n u.index)

/-- Errors answered lie further on. -/
theorem outcome_mem {e : LexError} {ks : List Call}
    (h : .outcome (some e) ∈ l.answersBehind n ts ks) : n ≤ e.index := by
  rcases mem_answersBehind h with ⟨u, -, heq⟩ | ⟨b, heq⟩
  · cases heq
  · obtain (_ | e') | t := b
    · cases heq
    · cases heq
      exact Nat.le_add_right n e'.index
    · cases heq

/-! ## Restarting -/

/-- A call that takes nothing from the queue leaves its tokens in front. -/
theorem ready_prefix (hk : k ≠ .next) (l : Lexer) : l.ready <+: (l.call k).2.ready := by
  have h := call_queue hk l.ready l.drain.2
  rw [← l.eq_queue_drain] at h
  rw [h]
  exact List.prefix_append ..

theorem Call.Ends.ne_next (h : k.Ends l) : k ≠ .next := by
  rintro rfl
  rcases h with h | ⟨e, he⟩
  · cases h
  · rw [call] at he
    cases hnext : l.next? <;> rw [hnext] at he <;> cases he

theorem Call.Ends.pending (h : k.Ends l) : (l.call k).2.pending = .none := by
  rcases h with rfl | ⟨e, he⟩
  · exact l.finish_pending
  · cases k with
    | push c =>
      have hfail : (l.push c).1 = some e := Answer.outcome.inj he
      have hpending := l.push_pending c
      rwa [hfail] at hpending
    | finish => exact l.finish_pending
    | next =>
      have hne : Call.next ≠ .next := Call.Ends.ne_next (.inr ⟨e, he⟩)
      exact absurd rfl hne

theorem eq_queue_empty (h : l.pending = .none) : l = (empty.shift l.cursor).queue l.ready := by
  obtain ⟨pending, cursor, ready⟩ := l
  cases h
  simp [shift, queue, empty, Pending.shift]

/-- **The lexer has restarted** behind `n` characters, the last of them in the call `k`. -/
structure Restarted (n : Nat) (completed : List Token) (k : Call) (l : Lexer) : Prop where
  pending : l.pending = .none
  /-- The tokens already completed are still in front of the queue, -/
  kept : completed <+: l.ready
  /-- and behind the queue later calls are answered as by a new lexer that is given them alone. -/
  answers : ∀ later, l.answers later = empty.answersBehind n l.ready later
  /-- A character whose push has failed is part of no token taken later, -/
  untaken : ∀ c, k = .push c → ∀ later t, .taken (some t) ∈ l.answers later →
    t.stop < n ∨ n ≤ t.index
  /-- nor does a later error lie there. -/
  unreported : ∀ later e, .outcome (some e) ∈ l.answers later → n ≤ e.index

/-- **A lexer restarts cleanly.** After any calls, what is pending is the end of what has been
    pushed, and its text is empty exactly if nothing is pending. A call that fails, and every finish,
    restarts the lexer behind the characters pushed. -/
theorem restarts (ks : List Call) :
    (empty.after ks).Stands (pushed ks) ∧
    ((empty.after ks).pending.text = "" ↔ (empty.after ks).pending = .none) ∧
    ∀ k, k.Ends (empty.after ks) →
      Restarted (pushed (ks ++ [k])).length (empty.after ks).ready k (empty.after (ks ++ [k])) := by
  have hstands (ks : List Call) : (empty.after ks).Stands (pushed ks) := stands_empty.after ks
  refine ⟨hstands ks, (hstands ks).formed.text_eq_empty_iff, ?_⟩
  intro k hk
  have hcursor := (hstands (ks ++ [k])).cursor
  rw [after_append] at hcursor ⊢
  rw [← hcursor]
  have hl := hstands ks
  generalize empty.after ks = l at hk hl ⊢
  have hanswers (later : List Call) : (l.call k).2.answers later =
      empty.answersBehind (l.call k).2.cursor (l.call k).2.ready later := by
    rw [← answers_queue, ← eq_queue_empty hk.pending]
  refine ⟨hk.pending, ready_prefix hk.ne_next l, hanswers, ?_, ?_⟩
  · rintro c rfl later t ht
    rw [hanswers] at ht
    rcases taken_mem ht with hready | hlater
    · obtain hk | ⟨e, he⟩ := hk
      · cases hk
      · exact .inl (hl.stop_lt (Answer.outcome.inj he) t hready)
    · exact .inr hlater
  · intro later e he
    rw [hanswers] at he
    exact outcome_mem he

/-- A character between two words that no token starts with. It comes to light with the first word
    in the queue, and the second word is scanned as if it were the first of a text. -/
theorem misread_restarts :
    Call.Ends (empty.after [.push 'a', .push 'b']) (.push '@') ∧
    (empty.after ([.push 'a', .push 'b'] ++ [.push '@'])).answers
        [.push 'c', .next, .finish, .next, .next] =
      [.outcome none, .taken (some ⟨.identifier, 0, "ab"⟩), .outcome none,
        .taken (some ⟨.identifier, 3, "c"⟩), .taken none] := by
  have hends : Call.Ends (empty.after [.push 'a', .push 'b']) (.push '@') :=
    .inr ⟨⟨2, .unexpectedCharacter '@'⟩, by decide +kernel⟩
  obtain ⟨-, -, hrestart⟩ := restarts [.push 'a', .push 'b']
  exact ⟨hends, ((hrestart _ hends).answers _).trans (by decide +kernel)⟩

end Lexer

end PL0
