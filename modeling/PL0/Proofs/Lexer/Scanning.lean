import PL0.Proofs.Lexer.Calls
import PL0.Proofs.Lexer.MaximalMunch
import PL0.Proofs.Numeral

/-!
# `Lexer.Scanning` — the lexer finds the longest lexemes

A lexer never looks ahead. It holds back the lexeme it is in until a character ends it, and `ahead`
says which lexemes are still to come then: the pending one, which goes on as long as it can, and
those of the text behind it. This is the invariant of a run (`runFrom_eq`): whatever is pending, what
a lexer delivers from here on are the lexemes ahead, up to the first bad one.
-/

namespace PL0

open MaximalMunch

/-! ## What a finished lexeme is

The lexer keeps the characters of a lexeme and asks for its kind when it is finished. In the
reference the kind follows from how the lexeme started. Here both are seen to agree, on runs of
letters, runs of digits, and marks. -/

/-- No character is a letter and a digit. -/
theorem not_isDigit_of_isAlpha {c : Char} (h : c.isAlpha) : c.isDigit = false := by
  simp only [Char.isAlpha, Char.isUpper, Char.isLower, Char.isDigit, Bool.or_eq_true,
    Bool.and_eq_true, decide_eq_true_eq, Bool.and_eq_false_iff, decide_eq_false_iff_not,
    ge_iff_le, UInt32.le_iff_toNat_le, Char.reduceVal, UInt32.reduceToNat] at h ⊢
  omega

/-- A text of one character or more is not empty. -/
theorem isEmpty_ofList_cons (c : Char) (cs : List Char) :
    (String.ofList (c :: cs)).isEmpty = false := by
  rw [String.isEmpty_eq_false_iff, Ne, String.ofList_eq_empty_iff]
  exact List.cons_ne_nil c cs

/-- The text is a run of one or more characters with the property. -/
structure IsRun (p : Char → Bool) (text : String) : Prop where
  ne_nil : text.toList ≠ []
  all : ∀ c ∈ text.toList, p c

/-- A run starts with one character. -/
theorem IsRun.singleton {p : Char → Bool} {c : Char} (hc : p c) :
    IsRun p (String.singleton c) where
  ne_nil := by simp
  all := by simpa using hc

/-- A run goes on with a character of the same property. -/
theorem IsRun.push {p : Char → Bool} {text : String} {c : Char} (h : IsRun p text) (hc : p c) :
    IsRun p (text.push c) := by
  constructor
  · simp
  · intro d hd
    rw [String.toList_push, List.mem_append, List.mem_singleton] at hd
    rcases hd with hd | rfl
    · exact h.all d hd
    · exact hc

/-- A run is written with its first character in front. -/
theorem IsRun.exists_cons {p : Char → Bool} {text : String} (h : IsRun p text) :
    ∃ c cs, text = String.ofList (c :: cs) ∧ ∀ d ∈ c :: cs, p d := by
  obtain ⟨c, cs, hcs⟩ := List.exists_cons_of_ne_nil h.ne_nil
  exact ⟨c, cs, by rw [← hcs, String.ofList_toList], hcs ▸ h.all⟩

namespace Kind

/-- No mark starts with a letter or a digit. -/
theorem mark_ofText?_eq_none {c : Char} {cs : List Char} (h : c.isAlpha ∨ c.isDigit) :
    Mark.ofText? (String.ofList (c :: cs)) = none := by
  have hhead : ∀ m : Mark, ∀ d ∈ m.spelling.toList.head?, ¬ (d.isAlpha ∨ d.isDigit) := by
    rintro m d hd
    cases m <;> cases hd <;> decide
  cases hm : Mark.ofText? (String.ofList (c :: cs)) with
  | none => rfl
  | some m =>
    refine absurd h (hhead m c ?_)
    rw [← Mark.ofText?_eq_some_iff.1 hm]
    simp

/-- No reserved word starts with a digit. -/
theorem keyword_ofText?_eq_none {c : Char} {cs : List Char} (h : c.isDigit) :
    Keyword.ofText? (String.ofList (c :: cs)) = none := by
  have hhead : ∀ k : Keyword, ∀ d ∈ k.spelling.toList.head?, ¬ d.isDigit := by
    rintro k d hd
    cases k <;> cases hd <;> decide
  cases hk : Keyword.ofText? (String.ofList (c :: cs)) with
  | none => rfl
  | some k =>
    refine absurd h (hhead k c ?_)
    rw [← Keyword.ofText?_eq_some_iff.1 hk]
    simp

/-- Of the tests in their order, letters only pass that for a reserved word and that for a short
    word. -/
theorem classify_letters {c : Char} {cs : List Char} (h : ∀ d ∈ c :: cs, d.isAlpha) :
    classify (String.ofList (c :: cs)) =
      match Keyword.ofText? (String.ofList (c :: cs)) with
      | some k => some (keyword k)
      | none => if (c :: cs).length ≤ 10 then some identifier else none := by
  have hc := h c (List.mem_cons_self ..)
  have hdigits : isDigits (String.ofList (c :: cs)) = false := by
    simp [isDigits, isDigit, not_isDigit_of_isAlpha hc]
  have hshort : isShortWord (String.ofList (c :: cs)) = decide ((c :: cs).length ≤ 10) := by
    have hall : (c :: cs).all isLetter = true := List.all_eq_true.2 h
    unfold isShortWord
    rw [String.toList_ofList, hall, isEmpty_ofList_cons, String.length_ofList]
    simp [maxIdentifierLength]
  unfold classify
  rw [mark_ofText?_eq_none (.inl hc), hdigits, hshort]
  cases Keyword.ofText? (String.ofList (c :: cs)) with
  | some k => rfl
  | none => simp only [Bool.false_eq_true, if_false, decide_eq_true_eq]

/-- Digits are a number whatever their value. -/
theorem classify_digits {c : Char} {cs : List Char} (h : ∀ d ∈ c :: cs, d.isDigit) :
    classify (String.ofList (c :: cs)) = some number := by
  have hc := h c (List.mem_cons_self ..)
  have hdigits : isDigits (String.ofList (c :: cs)) = true := by
    have hall : (c :: cs).all isDigit = true := List.all_eq_true.2 h
    unfold isDigits
    rw [String.toList_ofList, hall, isEmpty_ofList_cons]
    rfl
  unfold classify
  rw [mark_ofText?_eq_none (.inr hc), keyword_ofText?_eq_none hc, hdigits]
  rfl

end Kind

namespace Lexer

/-- A run of letters is finished as `word` says. -/
theorem token_letters {letters : String} (h : IsRun Char.isAlpha letters) (start : Nat) :
    token start letters = Lexeme.token ⟨start, letters.toList, word letters.toList⟩ := by
  obtain ⟨c, cs, rfl, hall⟩ := h.exists_cons
  rw [String.toList_ofList]
  unfold token Lexeme.token word
  rw [Kind.classify_letters hall]
  cases Keyword.ofText? (String.ofList (c :: cs)) with
  | some k => simp
  | none =>
    dsimp only
    by_cases hlen : (c :: cs).length ≤ 10
    · rw [if_pos hlen, if_pos hlen]
      simp
    · rw [if_neg hlen, if_neg hlen]

/-- Digits are refused exactly if their value is too great. -/
theorem word?_digits {c : Char} {cs : List Char} (h : ∀ d ∈ c :: cs, d.isDigit) :
    Decimal.word? (String.ofList (c :: cs)) = none ↔
      ¬ Nat.ofDigitChars 10 (c :: cs) 0 ≤ 2 ^ 63 - 1 := by
  have hint := Decimal.int?_of_unsigned ⟨List.cons_ne_nil c cs, h, rfl⟩
  unfold Decimal.word?
  rw [String.toList_ofList, hint, Option.bind_some, Word.checked_eq_none_iff]
  unfold Word.InRange Word.least Word.greatest
  omega

/-- A run of digits is finished as `number` says. -/
theorem token_digits {run : String} (h : IsRun Char.isDigit run) (start : Nat) :
    token start run = Lexeme.token ⟨start, run.toList, number run.toList⟩ := by
  obtain ⟨c, cs, rfl, hall⟩ := h.exists_cons
  rw [String.toList_ofList]
  have hword := word?_digits hall
  unfold token Lexeme.token number
  rw [Kind.classify_digits hall]
  by_cases hle : Nat.ofDigitChars 10 (c :: cs) 0 ≤ 2 ^ 63 - 1
  · have hsome : ¬ Decimal.word? (String.ofList (c :: cs)) = none := by
      rw [hword]
      exact fun hnot => hnot hle
    rw [if_pos hle]
    exact if_neg fun h => hsome h.2
  · rw [if_neg hle]
    exact if_pos ⟨rfl, hword.2 hle⟩

/-- An opening that is not lengthened is a mark by itself, but for the colon. -/
theorem token_alone (o : Opening) (start : Nat) :
    token start (String.singleton o.char) = Lexeme.token ⟨start, [o.char], alone o⟩ := by
  cases o <;> rfl

/-- With the equals sign behind it, every opening is a mark. -/
theorem token_lengthened (o : Opening) (start : Nat) :
    token start (String.ofList [o.char, '=']) =
      Lexeme.token ⟨start, [o.char, '='], .ok (.mark (lengthened o))⟩ := by
  cases o <;> rfl

/-- Whatever the table has is a mark that stands alone. -/
theorem isLoneMark_of_loneMark? {c : Char} {m : Mark} (h : loneMark? c = some m) :
    isLoneMark c = true := by
  unfold loneMark? at h
  split at h <;> first | rfl | cases h

/-- The table has all marks that stand alone. -/
theorem not_isLoneMark_of_loneMark? {c : Char} (h : loneMark? c = none) : ¬ isLoneMark c := by
  intro hc
  simp only [isLoneMark, List.contains_eq_mem, decide_eq_true_eq, List.mem_cons,
    List.not_mem_nil, or_false] at hc
  rcases hc with rfl | rfl | rfl | rfl | rfl | rfl | rfl | rfl | rfl | rfl | rfl | rfl | rfl <;>
    cases h

/-- The same characters are skipped on both sides. -/
theorem isBlank_iff {c : Char} : isBlank c = true ↔ IsBlank c := by
  simp [isBlank, IsBlank, or_assoc]

/-- A mark that stands alone is the token of its character. -/
theorem token_lone {c : Char} {m : Mark} (h : loneMark? c = some m) (start : Nat) :
    token start (String.singleton c) = Lexeme.token ⟨start, [c], .ok (.mark m)⟩ := by
  unfold loneMark? at h
  split at h <;> cases h <;> rfl

end Lexer

/-! ## The lexemes ahead

A lexer that is inside a lexeme knows its beginning only. The lexemes ahead are stated with the
pending beginning in front, so that reading one character more leaves them as they are. -/

/-- The tokens of the lexemes in front of the first bad one, and its error. -/
def Lexeme.deliver : List Lexeme → List Token × Option LexError
  | [] => ([], none)
  | l :: ls =>
    match l.token with
    | .ok t => (t :: (deliver ls).1, (deliver ls).2)
    | .error e => ([], some e)

namespace MaximalMunch

/-- A lexeme of which `run` has been read goes on while `p` holds. -/
def onward (p : Char → Bool) (verdict : List Char → Except LexError.Cause Kind) (start : Nat)
    (run : List Char) (i : Nat) (cs : List Char) : List Lexeme :=
  ⟨start, run ++ cs.takeWhile p, verdict (run ++ cs.takeWhile p)⟩ ::
    lexemes (i + (cs.takeWhile p).length) (cs.dropWhile p)

/-- The lexemes to come with `cs` ahead, whose first character has the index `i`. -/
def ahead (i : Nat) (cs : List Char) : Pending → List Lexeme
  | .none => lexemes i cs
  | .opening start o =>
    if cs.head? = some '=' then
      ⟨start, [o.char, '='], .ok (.mark (lengthened o))⟩ :: lexemes (i + 1) cs.tail
    else ⟨start, [o.char], alone o⟩ :: lexemes i cs
  | .word start letters => onward Char.isAlpha word start letters.toList i cs
  | .digits start run => onward Char.isDigit number start run.toList i cs

section
variable {p : Char → Bool} {verdict : List Char → Except LexError.Cause Kind} {start i : Nat}
  {run cs : List Char} {c : Char}

/-- Reading on one character changes nothing about what is to come. -/
theorem onward_cons (h : p c) :
    onward p verdict start run i (c :: cs) = onward p verdict start (run ++ [c]) (i + 1) cs := by
  simp [onward, h, Nat.add_assoc, Nat.add_comm 1]

/-- A run that cannot go on is a lexeme. -/
theorem onward_stop (h : ∀ c ∈ cs.head?, ¬ p c) :
    onward p verdict start run i cs = ⟨start, run, verdict run⟩ :: lexemes i cs := by
  cases cs with
  | nil => simp [onward]
  | cons c cs => simp [onward, h c rfl]

/-- Behind the run is what is left when it has been dropped. -/
theorem drop_length_takeWhile (p : Char → Bool) (cs : List Char) :
    cs.drop (cs.takeWhile p).length = cs.dropWhile p := by
  induction cs with
  | nil => rfl
  | cons c cs ih => by_cases h : p c <;> simp [h, ih]

/-- A letter starts a word. -/
theorem lexemes_letter (h : c.isAlpha) (i : Nat) (cs : List Char) :
    lexemes i (c :: cs) = onward Char.isAlpha word i [c] (i + 1) cs := by
  have hblank : ¬ IsBlank c := by
    rintro (rfl | rfl | rfl) <;> exact absurd h (by decide)
  rw [lexemes_cons hblank]
  simp [front, h, onward, drop_length_takeWhile, Nat.add_assoc, Nat.add_comm 1]

/-- A digit starts a number. -/
theorem lexemes_digit (h : c.isDigit) (i : Nat) (cs : List Char) :
    lexemes i (c :: cs) = onward Char.isDigit number i [c] (i + 1) cs := by
  have hblank : ¬ IsBlank c := by
    rintro (rfl | rfl | rfl) <;> exact absurd h (by decide)
  have halpha : ¬ c.isAlpha := by
    intro halpha
    rw [not_isDigit_of_isAlpha halpha] at h
    cases h
  rw [lexemes_cons hblank]
  simp [front, halpha, h, onward, drop_length_takeWhile, Nat.add_assoc, Nat.add_comm 1]

/-- What an opening becomes depends on the next character. -/
theorem lexemes_opening {o : Opening} (h : Opening.ofChar? c = some o) (i : Nat) (cs : List Char) :
    lexemes i (c :: cs) = ahead (i + 1) cs (.opening i o) := by
  obtain rfl := Opening.char_of_ofChar? h
  have hblank : ¬ IsBlank o.char := by cases o <;> decide
  have halpha : o.char.isAlpha = false := by cases o <;> rfl
  have hdigit : o.char.isDigit = false := by cases o <;> rfl
  rw [lexemes_cons hblank]
  by_cases heq : cs.head? = some '='
  · simp [front, ahead, halpha, hdigit, h, heq, Nat.add_assoc]
  · simp [front, ahead, halpha, hdigit, h, heq]

/-- A mark that stands alone is a lexeme at once. -/
theorem lexemes_lone {m : Mark} (h : loneMark? c = some m) (i : Nat) (cs : List Char) :
    lexemes i (c :: cs) = ⟨i, [c], .ok (.mark m)⟩ :: lexemes (i + 1) cs := by
  have hc : ¬ IsBlank c ∧ c.isAlpha = false ∧ c.isDigit = false ∧ Opening.ofChar? c = none := by
    unfold loneMark? at h
    split at h <;> first | decide | cases h
  obtain ⟨hblank, halpha, hdigit, hopening⟩ := hc
  rw [lexemes_cons hblank]
  simp [front, halpha, hdigit, hopening, h]

/-- Any other character is a bad lexeme by itself. -/
theorem lexemes_unexpected (hblank : ¬ IsBlank c) (halpha : ¬ c.isAlpha) (hdigit : ¬ c.isDigit)
    (hopening : Opening.ofChar? c = none) (hlone : loneMark? c = none) (i : Nat) (cs : List Char) :
    lexemes i (c :: cs) =
      ⟨i, [c], .error (.unexpectedCharacter c)⟩ :: lexemes (i + 1) cs := by
  rw [lexemes_cons hblank]
  simp [front, halpha, hdigit, hopening, hlone]

end

end MaximalMunch

/-! ## Runs

Each equation below is about one thing that a character can do: nothing, complete a lexeme together
with it, or complete the lexeme in front of it. The induction on the text picks one of them. -/

/-- What is held back is the beginning of a lexeme: one or more letters, or one or more digits. -/
def Pending.Formed : Pending → Prop
  | .none => True
  | .opening _ _ => True
  | .word _ letters => IsRun Char.isAlpha letters
  | .digits _ run => IsRun Char.isDigit run

namespace Lexer

variable {l l' : Lexer} {p : Pending} {c : Char} {cs : List Char} {text : String} {start i : Nat}
  {x : Lexeme} {xs : List Lexeme}

/-- The tokens that a character completes, in front of those of the rest. -/
theorem runFrom_of_push (h : l.push c = (none, l')) :
    l.runFrom (c :: cs) = (l'.ready ++ (runFrom { l' with ready := [] } cs).1,
      (runFrom { l' with ready := [] } cs).2) := by
  rw [runFrom, h]

/-- An error ends the run, behind the tokens completed before it. -/
theorem runFrom_of_push_error {e : LexError} (h : l.push c = (some e, l')) :
    l.runFrom (c :: cs) = (l'.ready, some e) := by
  rw [runFrom, h]

/-- The character completes a lexeme. -/
theorem runFrom_of_flush (h : push ⟨p, i, []⟩ c = flush ⟨p, i + 1, []⟩ start text)
    (hx : token start text = x.token) (hxs : runFrom ⟨.none, i + 1, []⟩ cs = Lexeme.deliver xs) :
    runFrom ⟨p, i, []⟩ (c :: cs) = Lexeme.deliver (x :: xs) := by
  unfold flush at h
  unfold Lexeme.deliver
  rw [hx] at h
  cases ht : x.token with
  | ok t =>
    rw [ht] at h
    rw [runFrom_of_push h, hxs]
    rfl
  | error e =>
    rw [ht] at h
    rw [runFrom_of_push_error h]

/-- The character stands behind the pending lexeme. -/
theorem runFrom_of_flushThenStart
    (h : push ⟨p, i, []⟩ c = flushThenStart ⟨p, i + 1, []⟩ start text i c)
    (hx : token start text = x.token) (hxs : runFrom ⟨.none, i, []⟩ (c :: cs) = Lexeme.deliver xs) :
    runFrom ⟨p, i, []⟩ (c :: cs) = Lexeme.deliver (x :: xs) := by
  unfold flushThenStart flush at h
  unfold Lexeme.deliver
  rw [hx] at h
  cases ht : x.token with
  | ok t =>
    rw [ht] at h
    dsimp only [List.nil_append] at h ⊢
    -- The token just completed plays no part in looking at the character.
    replace h := h.trans (start_queue [t] ⟨.none, i + 1, []⟩ i c)
    rw [← hxs]
    have hnone : push ⟨.none, i, []⟩ c = Lexer.start ⟨.none, i + 1, []⟩ i c := rfl
    cases hstart : Lexer.start ⟨.none, i + 1, []⟩ i c with
    | mk e l' =>
      rw [hstart] at h hnone
      cases e with
      | none =>
        rw [runFrom_of_push h, runFrom_of_push hnone]
        rfl
      | some e =>
        rw [runFrom_of_push_error h, runFrom_of_push_error hnone]
        rfl
  | error e =>
    rw [ht] at h
    rw [runFrom_of_push_error h]

/-- The text ends behind the pending lexeme. -/
theorem runFrom_nil_of_flush (h : finish ⟨p, i, []⟩ = flush ⟨p, i, []⟩ start text)
    (hx : token start text = x.token) :
    runFrom ⟨p, i, []⟩ [] = Lexeme.deliver [x] := by
  unfold flush at h
  rw [hx] at h
  rw [runFrom, h]
  unfold Lexeme.deliver
  cases x.token <;> rfl

/-- A character that completes nothing leaves no token behind. -/
theorem runFrom_of_quiet {q : Pending} (h : push ⟨p, i, []⟩ c = (none, ⟨q, i + 1, []⟩)) :
    runFrom ⟨p, i, []⟩ (c :: cs) = runFrom ⟨q, i + 1, []⟩ cs := by
  rw [runFrom_of_push h]
  rfl

/-- With nothing pending, the first character decides. -/
theorem runFrom_none_cons
    (ih : ∀ {p i}, p.Formed → runFrom ⟨p, i, []⟩ cs = Lexeme.deliver (ahead i cs p)) :
    runFrom ⟨.none, i, []⟩ (c :: cs) = Lexeme.deliver (lexemes i (c :: cs)) := by
  have hpush : push ⟨.none, i, []⟩ c = Lexer.start ⟨.none, i + 1, []⟩ i c := rfl
  unfold Lexer.start at hpush
  cases hm : loneMark? c with
  | some m =>
    rw [if_pos (isLoneMark_of_loneMark? hm)] at hpush
    rw [lexemes_lone hm]
    exact runFrom_of_flush hpush (token_lone hm i) (ih trivial)
  | none =>
  rw [if_neg (not_isLoneMark_of_loneMark? hm)] at hpush
  cases ho : Opening.ofChar? c with
  | some o =>
    rw [ho] at hpush
    rw [lexemes_opening ho, runFrom_of_quiet hpush]
    exact ih trivial
  | none =>
  rw [ho] at hpush
  dsimp only at hpush
  by_cases hblank : IsBlank c
  · rw [if_pos (isBlank_iff.2 hblank)] at hpush
    rw [lexemes_blank hblank, runFrom_of_quiet hpush]
    exact ih trivial
  rw [if_neg (mt isBlank_iff.1 hblank)] at hpush
  have hletter : Kind.isLetter c = c.isAlpha := rfl
  have hisDigit : Kind.isDigit c = c.isDigit := rfl
  by_cases halpha : c.isAlpha
  · rw [hletter, if_pos halpha] at hpush
    have hformed : (Pending.word i (String.singleton c)).Formed := IsRun.singleton halpha
    rw [lexemes_letter halpha, runFrom_of_quiet hpush, ih hformed, ahead, String.toList_singleton]
  rw [hletter, if_neg halpha] at hpush
  by_cases hdigit : c.isDigit
  · rw [hisDigit, if_pos hdigit] at hpush
    have hformed : (Pending.digits i (String.singleton c)).Formed := IsRun.singleton hdigit
    rw [lexemes_digit hdigit, runFrom_of_quiet hpush, ih hformed, ahead, String.toList_singleton]
  rw [hisDigit, if_neg hdigit] at hpush
  rw [lexemes_unexpected hblank halpha hdigit ho hm, runFrom_of_push_error hpush]
  rfl

/-- A pending run takes the next character in, or is a lexeme in front of it. -/
theorem runFrom_run_cons {f : Char → Bool} {verdict : List Char → Except LexError.Cause Kind}
    {q : String → Pending}
    (hpush : ∀ c, push ⟨q text, i, []⟩ c = if f c then (none, ⟨q (text.push c), i + 1, []⟩)
      else flushThenStart ⟨q text, i + 1, []⟩ start text i c)
    (htoken : token start text = Lexeme.token ⟨start, text.toList, verdict text.toList⟩)
    (hmore : f c → runFrom ⟨q (text.push c), i + 1, []⟩ cs =
      Lexeme.deliver (onward f verdict start (text.push c).toList (i + 1) cs))
    (hnone : runFrom ⟨.none, i, []⟩ (c :: cs) = Lexeme.deliver (lexemes i (c :: cs))) :
    runFrom ⟨q text, i, []⟩ (c :: cs) =
      Lexeme.deliver (onward f verdict start text.toList i (c :: cs)) := by
  by_cases hc : f c
  · rw [runFrom_of_quiet ((hpush c).trans (if_pos hc)), onward_cons hc, hmore hc,
      String.toList_push]
  · rw [onward_stop (by simpa using hc)]
    exact runFrom_of_flushThenStart ((hpush c).trans (if_neg hc)) htoken hnone

/-- **The invariant of a run.** -/
theorem runFrom_eq (hp : p.Formed) : runFrom ⟨p, i, []⟩ cs = Lexeme.deliver (ahead i cs p) := by
  induction cs generalizing p i with
  | nil =>
    cases p with
    | none =>
      rw [ahead]
      rw [lexemes_nil]
      rfl
    | opening start o =>
      rw [ahead]
      rw [if_neg (by simp), lexemes_nil]
      exact runFrom_nil_of_flush rfl (token_alone o start)
    | word start letters =>
      rw [ahead]
      rw [onward_stop (by simp), lexemes_nil]
      exact runFrom_nil_of_flush rfl (token_letters hp start)
    | digits start run =>
      rw [ahead]
      rw [onward_stop (by simp), lexemes_nil]
      exact runFrom_nil_of_flush rfl (token_digits hp start)
  | cons c cs ih =>
    have hnone (i : Nat) := runFrom_none_cons (i := i) (c := c) ih
    cases p with
    | none => exact hnone i
    | opening start o =>
      rw [ahead]
      by_cases heq : c = '='
      · subst heq
        rw [List.head?_cons, if_pos rfl, List.tail_cons]
        exact runFrom_of_flush rfl (token_lengthened o start) (ih trivial)
      · rw [if_neg (by simpa using heq)]
        refine runFrom_of_flushThenStart ?_ (token_alone o start) (hnone i)
        exact if_neg (by simpa using heq)
    | word start letters =>
      rw [ahead]
      exact runFrom_run_cons (fun _ => rfl) (token_letters hp start)
        (fun hc => ih (IsRun.push hp hc)) (hnone i)
    | digits start run =>
      rw [ahead]
      exact runFrom_run_cons (fun _ => rfl) (token_digits hp start)
        (fun hc => ih (IsRun.push hp hc)) (hnone i)

/-- What is delivered of a text are its longest lexemes, up to the first bad one. -/
theorem run_eq (text : String) : run text = Lexeme.deliver (lexemes 0 text.toList) :=
  runFrom_eq trivial

end Lexer

/-! ## Whole texts

The first error of a scan is that of the first bad lexeme, and without one all lexemes are tokens.
-/

/-- The lexeme that a token is. -/
def Token.lexeme (t : Token) : Lexeme := ⟨t.index, t.text.toList, .ok t.kind⟩

namespace Lexeme

/-- A lexeme and its token have the same start, text and kind. -/
theorem eq_lexeme_of_token {l : Lexeme} {t : Token} (h : l.token = .ok t) : l = t.lexeme := by
  obtain ⟨start, text, verdict⟩ := l
  unfold token at h
  cases verdict with
  | error cause => cases h
  | ok kind =>
    cases h
    simp [Token.lexeme]

/-- All tokens are delivered if there is no error, and otherwise the first error. -/
theorem mapM_token (ls : List Lexeme) : ls.mapM token =
    match deliver ls with
    | (ts, none) => .ok ts
    | (_, some e) => .error e := by
  induction ls with
  | nil => rfl
  | cons l ls ih =>
    rw [List.mapM_cons, ih, deliver]
    cases l.token with
    | error e => rfl
    | ok t =>
      obtain ⟨ts, e⟩ := deliver ls
      cases e <;> rfl

/-- If all are tokens, the lexemes are those of the tokens. -/
theorem eq_map_lexeme {ls : List Lexeme} {ts : List Token} (h : ls.mapM token = .ok ts) :
    ls = ts.map Token.lexeme := by
  induction ls generalizing ts with
  | nil =>
    cases h
    rfl
  | cons l ls ih =>
    rw [List.mapM_cons] at h
    cases ht : l.token with
    | error e =>
      rw [ht] at h
      cases h
    | ok t =>
      cases hts : ls.mapM token with
      | error e =>
        rw [ht, hts] at h
        cases h
      | ok us =>
        rw [ht, hts] at h
        cases h
        rw [List.map_cons, ← eq_lexeme_of_token ht, ← ih hts]

theorem token_lexeme (t : Token) : t.lexeme.token = .ok t := by
  simp [token, Token.lexeme]

theorem mapM_token_lexeme (ts : List Token) : (ts.map Token.lexeme).mapM token = .ok ts := by
  induction ts with
  | nil => rfl
  | cons t ts ih =>
    rw [List.map_cons, List.mapM_cons, token_lexeme, ih]
    rfl

end Lexeme

namespace Lexer

/-- Scanning answers the tokens of all lexemes, or the error of the first that is none. -/
theorem scan_eq (text : String) : scan text = (lexemes 0 text.toList).mapM Lexeme.token := by
  rw [Lexeme.mapM_token, ← run_eq]
  rfl

/-- The tokens of a text are its lexemes. -/
theorem scan_eq_ok_iff {text : String} {ts : List Token} :
    scan text = .ok ts ↔ lexemes 0 text.toList = ts.map Token.lexeme := by
  rw [scan_eq]
  exact ⟨Lexeme.eq_map_lexeme, fun h => h ▸ Lexeme.mapM_token_lexeme ts⟩

/-- **Scanning finds the longest lexemes.** Every text is scanned as if by looking ahead: all of its
    lexemes are tokens and are answered in order, each with its kind, index and text, or the answer
    is the error of the first that is none. The tokens of a text tile it up to blanks. -/
theorem scan_exact (text : String) :
    scan text = (lexemes 0 text.toList).mapM Lexeme.token ∧
    ∀ ts, scan text = .ok ts → Tiles (ts.map Token.lexeme) 0 text.toList := by
  refine ⟨scan_eq text, fun ts hts => ?_⟩
  rw [← scan_eq_ok_iff.1 hts]
  exact tiles_lexemes 0 text.toList

/-- A text in which every lexeme is ended by the next one; its tokens leave only the final blank. -/
theorem scan_adjacent :
    scan "a:=<=1 " = .ok [⟨.identifier, 0, "a"⟩, ⟨.mark .assign, 1, ":="⟩,
      ⟨.mark .lessEqual, 3, "<="⟩, ⟨.number, 5, "1"⟩] ∧
    Tiles ([⟨.identifier, 0, "a"⟩, ⟨.mark .assign, 1, ":="⟩, ⟨.mark .lessEqual, 3, "<="⟩,
      ⟨.number, 5, "1"⟩].map Token.lexeme) 0 "a:=<=1 ".toList := by
  have hscan : scan "a:=<=1 " = .ok [⟨.identifier, 0, "a"⟩, ⟨.mark .assign, 1, ":="⟩,
      ⟨.mark .lessEqual, 3, "<="⟩, ⟨.number, 5, "1"⟩] := by decide +kernel
  exact ⟨hscan, (scan_exact _).2 _ hscan⟩

/-- The word is reported, not the character that ends it. -/
example : scan "x := abcdefghijk?" = .error ⟨5, .invalidToken "abcdefghijk"⟩ := by decide +kernel

end Lexer

end PL0
