import PL0.Proofs.Lexer.Calls
import PL0.Proofs.Lexer.Scanning
import PL0.TokenStream

/-!
# `Lexer.Drivers` — one lexer, three ways to drive it

A text can be scanned at once (`Lexer.scan`), on demand (`TokenStream.next`), or by hand: the
characters are pushed one by one and the tokens are taken whenever it suits (`Lexer.feed`). The
three differ in when tokens leave the queue of a lexer and in when an error comes to light, and in
nothing else.

Main statement: `Lexer.drivers_agree`. On the way, `TokenStream.next_remaining` says that a poll
takes the first of the items to come, and `TokenStream.Tracks.next` which part of the text a stream
has looked at.
-/

namespace PL0

open MaximalMunch

namespace Lexer

/-! ## The three drivers -/

/-- Tokens and an error as one list, the error last. -/
def items (delivered : List Token × Option LexError) : List (Except LexError Token) :=
  delivered.1.map .ok ++ delivered.2.toList.map .error

/-- **The items of a text:** the tokens in front of its first bad lexeme, and then the error. -/
def itemsOf (text : String) : List (Except LexError Token) :=
  items (Lexeme.deliver (lexemes 0 text.toList))

/-- The characters behind the first one whose push fails, none where no push fails. -/
def beyond (l : Lexer) : List Char → List Char
  | [] => []
  | c :: cs =>
    match l.push c with
    | (some _, _) => cs
    | (none, l) => beyond l cs

/-- Ask `n` times for a token. Answers the tokens that were there to be taken. -/
def poll (l : Lexer) : Nat → List Token × Lexer
  | 0 => ([], l)
  | n + 1 =>
    match l.next? with
    | some (t, l) => (t :: (poll l n).1, (poll l n).2)
    | none => poll l n

/-- Push the characters one by one up to the first error, and finish if there was none. In front of
    these calls and behind the last one tokens are asked for, as often as `polls` says, and what is
    left in the end is drained. Answers the tokens in the order in which they were taken, and the
    error. -/
def feed (l : Lexer) (polls : Nat → Nat) : List Char → List Token × Option LexError
  | [] =>
    let (ts, l) := l.poll (polls 0)
    let (e, l) := l.finish
    let (us, l) := l.poll (polls 1)
    (ts ++ us ++ l.drain.1, e)
  | c :: cs =>
    let (ts, l) := l.poll (polls 0)
    match l.push c with
    | (some e, l) =>
      let (us, l) := l.poll (polls 1)
      (ts ++ us ++ l.drain.1, some e)
    | (none, l) =>
      let (us, e) := feed l (fun n => polls (n + 1)) cs
      (ts ++ us, e)

end Lexer

namespace TokenStream

/-- The stream after `n` polls. -/
def after (s : TokenStream) : Nat → TokenStream
  | 0 => s
  | n + 1 => s.next.2.after n

/-- What the poll after the first `n` answers. -/
def answer (s : TokenStream) (n : Nat) : Option (Except LexError Token) := (s.after n).next.1

/-- How many characters of the text have been looked at. -/
def pulled (text : String) (s : TokenStream) : Nat := text.length - s.rest.length

end TokenStream

/-! ## Taking tokens -/

namespace Lexer

theorem poll_eq (l : Lexer) (n : Nat) :
    l.poll n = (l.ready.take n, l.drain.2.queue (l.ready.drop n)) := by
  induction n generalizing l with
  | zero => exact congrArg (Prod.mk []) l.eq_queue_drain
  | succ n ih =>
    obtain ⟨pending, cursor, ready⟩ := l
    cases ready with
    | nil => exact (ih _).trans (by simp [queue, drain])
    | cons t ready =>
      show (t :: (poll ⟨pending, cursor, ready⟩ n).1, (poll ⟨pending, cursor, ready⟩ n).2) = _
      rw [ih]
      rfl

theorem runFrom_nil (l : Lexer) : l.runFrom [] = (l.finish.2.ready, l.finish.1) := rfl

/-- Tokens still in the queue come first. -/
theorem feed_eq (l : Lexer) (polls : Nat → Nat) (cs : List Char) :
    l.feed polls cs = (l.ready ++ (l.drain.2.runFrom cs).1, (l.drain.2.runFrom cs).2) := by
  have htake (ts us : List Token) (n : Nat) : ts.take n ++ (ts.drop n ++ us) = ts ++ us := by
    rw [← List.append_assoc, List.take_append_drop]
  induction cs generalizing l polls with
  | nil =>
    unfold feed
    simp only [poll_eq, finish_queue, runFrom_nil]
    simp [queue, drain, htake]
  | cons c cs ih =>
    unfold feed
    simp only [poll_eq, push_queue]
    cases hpush : l.drain.2.push c with
    | mk e l' =>
      cases e with
      | some e =>
        rw [runFrom_of_push_error hpush]
        simp [queue, drain, htake]
      | none =>
        dsimp only
        rw [ih, runFrom_of_push hpush]
        simp [queue, drain, htake]

theorem beyond_of_push {l l' : Lexer} {c : Char} (h : l.push c = (none, l')) (cs : List Char) :
    l.beyond (c :: cs) = l'.beyond cs := by
  rw [beyond, h]

theorem beyond_of_push_error {l l' : Lexer} {c : Char} {e : LexError}
    (h : l.push c = (some e, l')) (cs : List Char) : l.beyond (c :: cs) = cs := by
  rw [beyond, h]

theorem beyond_queue (ts : List Token) (l : Lexer) (cs : List Char) :
    (l.queue ts).beyond cs = l.beyond cs := by
  induction cs generalizing l with
  | nil => rfl
  | cons c cs ih =>
    have hpush := push_queue ts l c
    cases h : l.push c with
    | mk e l' =>
      rw [h] at hpush
      cases e with
      | some e => rw [beyond_of_push_error hpush, beyond_of_push_error h]
      | none => rw [beyond_of_push hpush, beyond_of_push h, ih]

theorem next?_eq_some {l l' : Lexer} {t : Token} (h : l.next? = some (t, l')) :
    l = l'.queue [t] := by
  obtain ⟨pending, cursor, ready⟩ := l
  cases ready with
  | nil => cases h
  | cons u ready =>
    cases h
    rfl

theorem next?_eq_none {l : Lexer} (h : l.next? = none) : l.ready = [] := by
  obtain ⟨pending, cursor, ready⟩ := l
  cases ready with
  | nil => rfl
  | cons u ready => cases h

end Lexer

/-! ## Polling a stream -/

namespace TokenStream

open Lexer

/-- The items that a stream has still to answer. -/
def remaining (s : TokenStream) : List (Except LexError Token) :=
  s.lexer.ready.map .ok ++
    match s.failure with
    | some e => [.error e]
    | none => if s.done then [] else items (s.lexer.drain.2.runFrom s.rest)

/-- An error ends the stream. -/
def Closed (s : TokenStream) : Prop := s.failure.isSome → s.done

variable {s s' : TokenStream} {item : Except LexError Token}

/-- What is at hand is a token of the queue, or the error behind an empty queue. -/
theorem take?_eq_some (h : s.take? = some (item, s')) :
    (∃ t, item = .ok t ∧ s = { s' with lexer := s'.lexer.queue [t] }) ∨
      (∃ e, item = .error e ∧ s.lexer.ready = [] ∧ s = { s' with failure := some e } ∧
        s'.failure = none) := by
  obtain ⟨rest, lexer, failure, done⟩ := s
  unfold take? at h
  cases hnext : lexer.next? with
  | some next =>
    obtain ⟨t, l⟩ := next
    simp only [hnext, Option.some.injEq, Prod.mk.injEq] at h
    obtain ⟨rfl, rfl⟩ := h
    rw [next?_eq_some hnext]
    exact .inl ⟨t, rfl, rfl⟩
  | none =>
    cases failure with
    | none => simp [hnext] at h
    | some e =>
      simp only [hnext, Option.some.injEq, Prod.mk.injEq] at h
      obtain ⟨rfl, rfl⟩ := h
      exact .inr ⟨e, rfl, next?_eq_none hnext, rfl, rfl⟩

theorem take?_eq_none (h : s.take? = none) : s.lexer.ready = [] ∧ s.failure = none := by
  unfold take? at h
  cases hnext : s.lexer.next? with
  | some next => simp [hnext] at h
  | none =>
    cases hfailure : s.failure with
    | some e => simp [hnext, hfailure] at h
    | none => exact ⟨next?_eq_none hnext, rfl⟩

theorem Closed.take? (hs : s.Closed) (h : s.take? = some (item, s')) :
    s'.Closed ∧ s.remaining = item :: s'.remaining := by
  rcases take?_eq_some h with ⟨t, rfl, rfl⟩ | ⟨e, rfl, hready, rfl, hnone⟩
  · exact ⟨hs, rfl⟩
  · have hdone : s'.done = true := hs rfl
    have hready : s'.lexer.ready = [] := hready
    refine ⟨fun _ => hdone, ?_⟩
    simp [remaining, hready, hnone, hdone]

/-- What is at hand is the first of the items to come. -/
theorem Closed.first (hs : s.Closed) (h : s.take? = some (item, s')) :
    s'.Closed ∧ some item = s.remaining.head? ∧ s'.remaining = s.remaining.tail := by
  obtain ⟨hs', hitem⟩ := hs.take? h
  rw [hitem]
  exact ⟨hs', rfl, rfl⟩

/-- Where nothing is at hand, the items to come are those of the text. -/
theorem remaining_of_take? (h : s.take? = none) :
    s.remaining = if s.done then [] else items (s.lexer.runFrom s.rest) := by
  obtain ⟨hready, hnone⟩ := take?_eq_none h
  unfold remaining
  rw [hready, hnone, drain_eq_self hready]
  rfl

theorem remaining_finish (l : Lexer) :
    remaining ⟨[], l.finish.2, l.finish.1, true⟩ = items (l.runFrom []) := by
  unfold remaining items
  rw [l.runFrom_nil]
  cases l.finish.1 <;> rfl

theorem remaining_push (l : Lexer) (c : Char) (cs : List Char) :
    remaining ⟨cs, (l.push c).2, (l.push c).1, (l.push c).1.isSome⟩ =
      items (l.runFrom (c :: cs)) := by
  unfold remaining items
  cases hpush : l.push c with
  | mk e l' =>
    cases e with
    | some e =>
      rw [runFrom_of_push_error hpush]
      rfl
    | none =>
      rw [runFrom_of_push hpush]
      simp [drain]

/-- A poll that finds nothing at hand looks for the next item in the text. -/
theorem pull_remaining {l : Lexer} (cs : List Char) :
    (pull l cs).2.Closed ∧ (pull l cs).1 = (items (l.runFrom cs)).head? ∧
      (pull l cs).2.remaining = (items (l.runFrom cs)).tail := by
  induction cs generalizing l with
  | nil =>
    have hs : Closed ⟨[], l.finish.2, l.finish.1, true⟩ := fun _ => rfl
    unfold pull
    rw [← remaining_finish]
    cases htake : take? ⟨[], l.finish.2, l.finish.1, true⟩ with
    | some next =>
      simp only [htake]
      exact hs.first htake
    | none =>
      simp only [htake]
      rw [remaining_of_take? htake]
      exact ⟨hs, rfl, rfl⟩
  | cons c cs ih =>
    have hs : Closed ⟨cs, (l.push c).2, (l.push c).1, (l.push c).1.isSome⟩ := id
    unfold pull
    rw [← remaining_push]
    cases htake : take? ⟨cs, (l.push c).2, (l.push c).1, (l.push c).1.isSome⟩ with
    | some next =>
      simp only [htake]
      exact hs.first htake
    | none =>
      obtain ⟨-, hnone⟩ := take?_eq_none htake
      have hnone : (l.push c).1 = none := hnone
      simp only [htake]
      rw [remaining_of_take? htake, hnone]
      exact ih

/-- **A poll takes the first of the items to come.** -/
theorem next_remaining (hs : s.Closed) :
    s.next.2.Closed ∧ s.next.1 = s.remaining.head? ∧ s.next.2.remaining = s.remaining.tail := by
  unfold next
  cases htake : s.take? with
  | some next => exact hs.first htake
  | none =>
    have hremaining := remaining_of_take? htake
    cases hdone : s.done with
    | true =>
      rw [hdone] at hremaining
      rw [hremaining]
      exact ⟨hs, rfl, hremaining⟩
    | false =>
      rw [hdone] at hremaining
      rw [hremaining]
      exact pull_remaining s.rest

theorem answer_eq (hs : s.Closed) (n : Nat) : s.answer n = s.remaining[n]? := by
  obtain ⟨hs', hhead, htail⟩ := next_remaining hs
  induction n generalizing s with
  | zero =>
    rw [← List.head?_eq_getElem?]
    exact hhead
  | succ n ih =>
    obtain ⟨hs'', hhead', htail'⟩ := next_remaining hs'
    show s.next.2.answer n = _
    rw [ih hs' hs'' hhead' htail', htail, List.getElem?_tail]

/-! ## How far a stream has looked -/

/-- **A stream of `text` between two polls.** -/
structure Tracks (text : String) (s : TokenStream) : Prop where
  /-- What it has not looked at is the end of the text. -/
  suffix : s.rest <:+ text.toList
  /-- The lexer has been given all the characters in front of it. -/
  cursor : s.lexer.cursor + s.rest.length = text.toList.length
  pending : s.lexer.pending.EndsAt s.lexer.cursor
  /-- At most one character behind a token at hand has been looked at. -/
  prompt : ∀ t ∈ s.lexer.ready, s.lexer.cursor ≤ t.stop + 1
  /-- Nothing behind a character whose push fails has been looked at, -/
  unread : Lexer.empty.beyond text.toList <:+ s.rest
  /-- and if none has failed yet, that character is still to come. -/
  ahead : s.done = false → s.lexer.beyond s.rest = Lexer.empty.beyond text.toList

variable {text : String} {l : Lexer} {c : Char} {cs : List Char} {failure : Option LexError}

theorem beyond_suffix (l : Lexer) (cs : List Char) : l.beyond cs <:+ cs := by
  induction cs generalizing l with
  | nil => exact List.suffix_rfl
  | cons c cs ih =>
    cases h : l.push c with
    | mk e l' =>
      cases e with
      | some e =>
        rw [beyond_of_push_error h]
        exact List.suffix_cons c cs
      | none =>
        rw [beyond_of_push h]
        exact (ih l').trans (List.suffix_cons c cs)

theorem tracks_ofText (text : String) : (ofText text).Tracks text where
  suffix := List.suffix_rfl
  cursor := Nat.zero_add _
  pending := trivial
  prompt := by
    intro t ht
    cases ht
  unread := beyond_suffix ..
  ahead _ := rfl

theorem Tracks.push (h : Tracks text ⟨c :: cs, l, failure, false⟩) (hl : l.ready = []) :
    Tracks text ⟨cs, (l.push c).2, (l.push c).1, (l.push c).1.isSome⟩ := by
  have hends : l.pending.EndsAt l.cursor := h.pending
  obtain ⟨hpending, hcursor, hready⟩ := push_spec hends c
  have hahead : l.beyond (c :: cs) = Lexer.empty.beyond text.toList := h.ahead rfl
  have hbeyond : l.beyond (c :: cs) <:+ cs ∧
      ((l.push c).1.isSome = false → (l.push c).2.beyond cs = l.beyond (c :: cs)) := by
    cases hpush : l.push c with
    | mk e l' =>
      cases e with
      | some e =>
        rw [beyond_of_push_error hpush]
        refine ⟨List.suffix_rfl, ?_⟩
        rintro ⟨⟩
      | none =>
        rw [beyond_of_push hpush]
        exact ⟨beyond_suffix l' cs, fun _ => rfl⟩
  constructor
  · exact (List.suffix_cons c cs).trans h.suffix
  · have hlength : l.cursor + (cs.length + 1) = text.toList.length := h.cursor
    show (l.push c).2.cursor + cs.length = _
    omega
  · show (l.push c).2.pending.EndsAt (l.push c).2.cursor
    rw [hcursor]
    exact hpending
  · intro t ht
    show (l.push c).2.cursor ≤ _
    rcases hready t ht with ht | hstop
    · rw [hl] at ht
      cases ht
    · omega
  · exact hahead ▸ hbeyond.1
  · exact fun hdone => (hbeyond.2 hdone).trans hahead

theorem Tracks.finish (h : Tracks text ⟨[], l, failure, false⟩) (hl : l.ready = []) :
    Tracks text ⟨[], l.finish.2, l.finish.1, true⟩ := by
  have hends : l.pending.EndsAt l.cursor := h.pending
  have hpending := l.finish_pending
  obtain ⟨hcursor, hready⟩ := finish_spec hends
  constructor
  · exact h.suffix
  · show l.finish.2.cursor + 0 = _
    rw [hcursor]
    exact h.cursor
  · show l.finish.2.pending.EndsAt _
    rw [hpending]
    trivial
  · intro t ht
    show l.finish.2.cursor ≤ _
    rcases hready t ht with ht | hstop
    · rw [hl] at ht
      cases ht
    · omega
  · exact h.unread
  · rintro ⟨⟩

theorem Tracks.take? (h : s.Tracks text) (htake : s.take? = some (item, s')) :
    s'.Tracks text ∧ ∀ t, item = .ok t → s'.lexer.cursor ≤ t.stop + 1 := by
  rcases take?_eq_some htake with ⟨t, rfl, rfl⟩ | ⟨e, rfl, -, rfl, -⟩
  · refine ⟨⟨h.suffix, h.cursor, h.pending, ?_, h.unread, ?_⟩, ?_⟩
    · exact fun u hu => h.prompt u (List.mem_cons_of_mem t hu)
    · intro hdone
      rw [← h.ahead hdone]
      exact (beyond_queue [t] s'.lexer s'.rest).symm
    · rintro _ ⟨⟩
      exact h.prompt t (List.mem_cons_self ..)
  · refine ⟨⟨h.suffix, h.cursor, h.pending, h.prompt, h.unread, h.ahead⟩, ?_⟩
    rintro t ⟨⟩

theorem Tracks.pull (h : Tracks text ⟨cs, l, none, false⟩) (hl : l.ready = []) :
    (pull l cs).2.Tracks text ∧
      ∀ t, (pull l cs).1 = some (.ok t) → (pull l cs).2.lexer.cursor ≤ t.stop + 1 := by
  induction cs generalizing l with
  | nil =>
    have hs := h.finish hl
    unfold TokenStream.pull
    cases htake : TokenStream.take? ⟨[], l.finish.2, l.finish.1, true⟩ with
    | some next =>
      obtain ⟨item, s'⟩ := next
      obtain ⟨hs', hitem⟩ := hs.take? htake
      simp only [htake, Option.some.injEq]
      exact ⟨hs', hitem⟩
    | none =>
      simp only [htake]
      refine ⟨hs, ?_⟩
      rintro t ⟨⟩
  | cons c cs ih =>
    have hs := h.push hl
    unfold TokenStream.pull
    cases htake : TokenStream.take? ⟨cs, (l.push c).2, (l.push c).1, (l.push c).1.isSome⟩ with
    | some next =>
      obtain ⟨item, s'⟩ := next
      obtain ⟨hs', hitem⟩ := hs.take? htake
      simp only [htake, Option.some.injEq]
      exact ⟨hs', hitem⟩
    | none =>
      obtain ⟨hready, hnone⟩ := take?_eq_none htake
      have hnone : (l.push c).1 = none := hnone
      simp only [htake]
      rw [hnone] at hs
      exact ih hs hready

/-- **A poll looks no further than it has to.** -/
theorem Tracks.next (h : s.Tracks text) :
    s.next.2.Tracks text ∧ ∀ t, s.next.1 = some (.ok t) → s.next.2.lexer.cursor ≤ t.stop + 1 := by
  unfold TokenStream.next
  cases htake : s.take? with
  | some next =>
    obtain ⟨item, s'⟩ := next
    obtain ⟨hs', hitem⟩ := h.take? htake
    exact ⟨hs', fun t ht => hitem t (Option.some.inj ht)⟩
  | none =>
    obtain ⟨hready, hnone⟩ := take?_eq_none htake
    obtain ⟨rest, lexer, failure, done⟩ := s
    cases hnone
    cases done with
    | true =>
      refine ⟨h, ?_⟩
      rintro t ⟨⟩
    | false => exact Tracks.pull h hready

theorem Tracks.after (h : s.Tracks text) (n : Nat) : (s.after n).Tracks text := by
  induction n generalizing s with
  | zero => exact h
  | succ n ih => exact ih h.next.1

theorem after_succ (s : TokenStream) (n : Nat) : s.after (n + 1) = (s.after n).next.2 := by
  induction n generalizing s with
  | zero => rfl
  | succ n ih => exact ih s.next.2

theorem Tracks.pulled_eq (h : s.Tracks text) : s.pulled text = s.lexer.cursor := by
  unfold pulled
  rw [← String.length_toList, ← h.cursor, Nat.add_sub_cancel]

end TokenStream

/-! ## All drivers deliver the same -/

namespace Lexer

open TokenStream

theorem mapM_items (delivered : List Token × Option LexError) :
    (items delivered).mapM id =
      match delivered with
      | (ts, none) => .ok ts
      | (_, some e) => .error e := by
  obtain ⟨ts, e⟩ := delivered
  unfold items
  induction ts with
  | nil => cases e <;> rfl
  | cons t ts ih =>
    rw [List.map_cons, List.cons_append, List.mapM_cons, ih]
    cases e <;> rfl

/-- **Incremental, lazy and batch scanning agree.** Polling a stream answers the items of its text
    one after the other and then nothing more; it never looks at a character behind one whose push
    fails, and when it answers a token, at most one character behind that token has been looked at.
    Scanning at once answers these tokens, or the error. Pushing the characters by hand and taking
    tokens in between, however often, delivers the same tokens and the same error. -/
theorem drivers_agree (text : String) :
    (∀ n, (ofText text).answer n = (itemsOf text)[n]?) ∧
    (∀ n, ((ofText text).after n).rest <:+ text.toList ∧
      empty.beyond text.toList <:+ ((ofText text).after n).rest) ∧
    (∀ n t, (ofText text).answer n = some (.ok t) →
      ((ofText text).after (n + 1)).pulled text ≤ t.index + t.text.length + 1) ∧
    scan text = (itemsOf text).mapM id ∧
    (∀ polls, empty.feed polls text.toList = Lexeme.deliver (lexemes 0 text.toList)) := by
  have hrun : empty.runFrom text.toList = Lexeme.deliver (lexemes 0 text.toList) := run_eq text
  have htracks (n : Nat) := (tracks_ofText text).after n
  refine ⟨fun n => ?_, fun n => ⟨(htracks n).suffix, (htracks n).unread⟩, fun n t ht => ?_, ?_,
    fun polls => ?_⟩
  · have hclosed : (ofText text).Closed := by
      rintro ⟨⟩
    rw [answer_eq hclosed, itemsOf, ← hrun]
    rfl
  · have hprompt := (htracks n).next.2 t ht
    rw [(htracks (n + 1)).pulled_eq, after_succ]
    exact hprompt
  · rw [itemsOf, ← hrun, mapM_items]
    rfl
  · rw [feed_eq, ← hrun]
    rfl

/-- Behind the second character a word and an error are at hand at once. -/
example : (List.range 4).map (ofText "ab@cd").answer =
    [some (.ok ⟨.identifier, 0, "ab"⟩), some (.error ⟨2, .unexpectedCharacter '@'⟩), none, none] := by
  decide +kernel

end Lexer

end PL0
