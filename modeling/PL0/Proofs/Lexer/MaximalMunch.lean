import Mathlib
import PL0.Lexer

/-!
# `Lexer.MaximalMunch` — the lexemes of a text

What the lexer is measured against. `front` looks ahead in the text and takes the longest lexeme
that starts with a given character, together with its kind or with the reason why it is no token;
`lexemes` skips the blanks and takes one lexeme after the other, bad ones included.

Main statement: the lexemes tile the text up to blanks (`tiles_lexemes`). They are non-empty pieces
of it in order, none overlaps another, and exactly the blanks lie in none of them.
-/

namespace PL0

/-- A lexeme where it stands in a text: a token of some kind, or the reason why it is none. -/
structure Lexeme where
  start : Nat
  text : List Char
  verdict : Except LexError.Cause Kind

namespace Lexeme

/-- The index behind the last character. -/
def stop (l : Lexeme) : Nat := l.start + l.text.length

/-- The token, or the error at the first character. -/
def token (l : Lexeme) : Except LexError Token :=
  match l.verdict with
  | .ok kind => .ok ⟨kind, l.start, String.ofList l.text⟩
  | .error cause => .error ⟨l.start, cause⟩

/-- The lexeme has the character with the index `i`. -/
def Covers (l : Lexeme) (i : Nat) : Prop := l.start ≤ i ∧ i < l.stop

end Lexeme

namespace MaximalMunch

/-! ## Lexemes by looking ahead -/

/-- The characters that may stand between lexemes. -/
def IsBlank (c : Char) : Prop := c = ' ' ∨ c = '\r' ∨ c = '\n'

instance : DecidablePred IsBlank :=
  fun c => inferInstanceAs (Decidable (c = ' ' ∨ c = '\r' ∨ c = '\n'))

/-- A run of letters: a reserved word if it is one to the letter, else a short identifier. -/
def word (letters : List Char) : Except LexError.Cause Kind :=
  match Keyword.ofText? (String.ofList letters) with
  | some k => .ok (.keyword k)
  | none =>
    if letters.length ≤ 10 then .ok .identifier
    else .error (.invalidToken (String.ofList letters))

/-- A run of digits: a number if its value is a word. -/
def number (digits : List Char) : Except LexError.Cause Kind :=
  if Nat.ofDigitChars 10 digits 0 ≤ 2 ^ 63 - 1 then .ok .number
  else .error (.numberOutOfRange (String.ofList digits))

/-- The characters that `=` does not lengthen. -/
def loneMark? : Char → Option Mark
  | '(' => some .leftParen
  | ')' => some .rightParen
  | '+' => some .plus
  | '-' => some .minus
  | '*' => some .star
  | '/' => some .slash
  | '=' => some .equal
  | ';' => some .semicolon
  | ',' => some .comma
  | '#' => some .hash
  | '[' => some .leftBracket
  | ']' => some .rightBracket
  | '.' => some .dot
  | _ => none

/-- What `<`, `>` or `:` is without `=` behind it. -/
def alone : Opening → Except LexError.Cause Kind
  | .less => .ok (.mark .less)
  | .greater => .ok (.mark .greater)
  | .colon => .error (.invalidToken ":")

/-- What `<`, `>` or `:` is with `=` behind it. -/
def lengthened : Opening → Mark
  | .less => .lessEqual
  | .greater => .greaterEqual
  | .colon => .assign

/-- **The longest lexeme in front of `c :: cs`.** -/
def front (c : Char) (cs : List Char) : List Char × Except LexError.Cause Kind :=
  if c.isAlpha then (c :: cs.takeWhile Char.isAlpha, word (c :: cs.takeWhile Char.isAlpha))
  else if c.isDigit then
    (c :: cs.takeWhile Char.isDigit, number (c :: cs.takeWhile Char.isDigit))
  else
    match Opening.ofChar? c with
    | some o =>
      if cs.head? = some '=' then ([c, '='], .ok (.mark (lengthened o))) else ([c], alone o)
    | none =>
      match loneMark? c with
      | some m => ([c], .ok (.mark m))
      | none => ([c], .error (.unexpectedCharacter c))

/-- A lexeme goes on with some of the characters that follow, all of them letters, digits or `=`. -/
theorem exists_front (c : Char) (cs : List Char) : ∃ ds, (front c cs).1 = c :: ds ∧
    ds <+: cs ∧ ∀ d ∈ ds, d.isAlpha ∨ d.isDigit ∨ d = '=' := by
  unfold front
  by_cases halpha : c.isAlpha
  · rw [if_pos halpha]
    exact ⟨_, rfl, List.takeWhile_prefix _, fun d hd => .inl (List.mem_takeWhile_imp hd)⟩
  rw [if_neg halpha]
  by_cases hdigit : c.isDigit
  · rw [if_pos hdigit]
    exact ⟨_, rfl, List.takeWhile_prefix _, fun d hd => .inr (.inl (List.mem_takeWhile_imp hd))⟩
  rw [if_neg hdigit]
  have hone : ([] : List Char) <+: cs ∧ ∀ d ∈ ([] : List Char), d.isAlpha ∨ d.isDigit ∨ d = '=' :=
    ⟨List.nil_prefix, by simp⟩
  cases Opening.ofChar? c with
  | none => cases loneMark? c <;> exact ⟨[], rfl, hone⟩
  | some o =>
    by_cases heq : cs.head? = some '='
    · refine ⟨['='], by simp [heq], ?_, by simp⟩
      cases cs with
      | nil => cases heq
      | cons d ds =>
        cases heq
        exact ⟨ds, rfl⟩
    · exact ⟨[], by simp [heq], hone⟩

theorem isPrefix_front (c : Char) (cs : List Char) : (front c cs).1 <+: c :: cs := by
  obtain ⟨ds, h, hds, -⟩ := exists_front c cs
  rw [h]
  exact (List.prefix_cons_inj c).2 hds

theorem length_front_pos (c : Char) (cs : List Char) : 0 < (front c cs).1.length := by
  obtain ⟨ds, h, -⟩ := exists_front c cs
  simp [h]

/-- **The lexemes of `cs`**, whose first character has the index `i`. -/
def lexemes (i : Nat) : List Char → List Lexeme
  | [] => []
  | c :: cs =>
    if IsBlank c then lexemes (i + 1) cs
    else
      ⟨i, (front c cs).1, (front c cs).2⟩ ::
        lexemes (i + (front c cs).1.length) ((c :: cs).drop (front c cs).1.length)
termination_by cs => cs.length
decreasing_by
  · simp
  · have := length_front_pos c cs
    simp only [List.length_drop, List.length_cons]
    omega

theorem lexemes_nil (i : Nat) : lexemes i [] = [] := by
  rw [lexemes]

theorem lexemes_blank {c : Char} (h : IsBlank c) (i : Nat) (cs : List Char) :
    lexemes i (c :: cs) = lexemes (i + 1) cs := by
  rw [lexemes, if_pos h]

theorem lexemes_cons {c : Char} (h : ¬ IsBlank c) (i : Nat) (cs : List Char) :
    lexemes i (c :: cs) = ⟨i, (front c cs).1, (front c cs).2⟩ ::
      lexemes (i + (front c cs).1.length) ((c :: cs).drop (front c cs).1.length) := by
  rw [lexemes, if_neg h]

/-! ## Tiling -/

/-- No lexeme contains a blank. -/
theorem not_isBlank_of_mem_front {c d : Char} {cs : List Char} (h : ¬ IsBlank c)
    (hd : d ∈ (front c cs).1) : ¬ IsBlank d := by
  obtain ⟨ds, hfront, -, hds⟩ := exists_front c cs
  rw [hfront] at hd
  rcases List.mem_cons.1 hd with rfl | hd
  · exact h
  · rintro (rfl | rfl | rfl) <;> exact absurd (hds _ hd) (by decide)

/-- **The pieces tile the text, whose first character has the index `i`, up to blanks.** -/
structure Tiles (ls : List Lexeme) (i : Nat) (cs : List Char) : Prop where
  /-- Each is what stands in the text where it starts. -/
  slice : ∀ l ∈ ls, i ≤ l.start ∧ l.text ≠ [] ∧ l.text <+: cs.drop (l.start - i)
  /-- They come in order and do not overlap. -/
  apart : ls.Pairwise fun l m => l.stop ≤ m.start
  /-- Blanks, and nothing else, lie between them. -/
  between : ∀ j (h : j < cs.length), IsBlank cs[j] ↔ ∀ l ∈ ls, ¬ l.Covers (i + j)

theorem Tiles.nil (i : Nat) : Tiles [] i [] where
  slice := by simp
  apart := .nil
  between j h := by cases h

/-- Skipping `n` characters leaves the slices in place. -/
theorem drop_start {l : Lexeme} {i n : Nat} {cs : List Char} (h : i + n ≤ l.start) :
    (cs.drop n).drop (l.start - (i + n)) = cs.drop (l.start - i) := by
  rw [List.drop_drop]
  congr 1
  omega

theorem Tiles.blank {ls : List Lexeme} {i : Nat} {c : Char} {cs : List Char}
    (h : Tiles ls (i + 1) cs) (hc : IsBlank c) : Tiles ls i (c :: cs) := by
  refine ⟨fun l hl => ?_, h.apart, fun j hj => ?_⟩
  · obtain ⟨hi, hne, hpre⟩ := h.slice l hl
    refine ⟨by omega, hne, ?_⟩
    rw [← drop_start hi]
    exact hpre
  · cases j with
    | zero =>
      refine ⟨fun _ l hl hcov => ?_, fun _ => hc⟩
      have hi := (h.slice l hl).1
      have hle := hcov.1
      omega
    | succ j =>
      have hj' : j < cs.length := by simpa using hj
      have hadd : i + (j + 1) = i + 1 + j := by omega
      rw [hadd]
      exact h.between j hj'

theorem Tiles.cons {ls : List Lexeme} {l : Lexeme} {cs : List Char}
    (h : Tiles ls l.stop (cs.drop l.text.length)) (hne : l.text ≠ []) (hpre : l.text <+: cs)
    (hblank : ∀ c ∈ l.text, ¬ IsBlank c) : Tiles (l :: ls) l.start cs := by
  refine ⟨fun m hm => ?_, ?_, fun j hj => ?_⟩
  · rcases List.mem_cons.1 hm with rfl | hm
    · exact ⟨Nat.le_refl _, hne, by simpa using hpre⟩
    · obtain ⟨hi, hm⟩ := h.slice m hm
      have hle : l.start + l.text.length ≤ m.start := hi
      refine ⟨by omega, hm.1, ?_⟩
      rw [← drop_start hle]
      exact hm.2
  · exact List.pairwise_cons.2 ⟨fun m hm => (h.slice m hm).1, h.apart⟩
  · by_cases hlt : j < l.text.length
    · have hget : cs[j] = l.text[j] := (hpre.getElem hlt).symm
      have hnot : ¬ IsBlank cs[j] := by
        rw [hget]
        exact hblank _ (List.getElem_mem hlt)
      refine ⟨fun hb => absurd hb hnot, fun hcov => ?_⟩
      refine absurd ⟨by omega, ?_⟩ (hcov l (List.mem_cons_self ..))
      unfold Lexeme.stop
      omega
    · have hj' : j - l.text.length < (cs.drop l.text.length).length := by
        rw [List.length_drop]
        omega
      have hrest := h.between (j - l.text.length) hj'
      have hidx : l.text.length + (j - l.text.length) = j := by omega
      have hstop : l.stop + (j - l.text.length) = l.start + j := by
        unfold Lexeme.stop
        omega
      have hself : ¬ l.Covers (l.start + j) := by
        unfold Lexeme.Covers Lexeme.stop
        omega
      simp only [List.getElem_drop, hidx, hstop] at hrest
      rw [hrest]
      simp [hself]

/-- **The lexemes tile the text.** -/
theorem tiles_lexemes (i : Nat) (cs : List Char) : Tiles (lexemes i cs) i cs := by
  match cs with
  | [] =>
    rw [lexemes_nil]
    exact .nil i
  | c :: cs =>
    by_cases hc : IsBlank c
    · rw [lexemes_blank hc]
      exact (tiles_lexemes (i + 1) cs).blank hc
    · rw [lexemes_cons hc]
      have hpos := length_front_pos c cs
      refine .cons (tiles_lexemes _ _) ?_ (isPrefix_front c cs)
        fun d hd => not_isBlank_of_mem_front hc hd
      exact List.ne_nil_of_length_pos hpos
termination_by cs.length
decreasing_by
  · simp
  · have := length_front_pos c cs
    simp only [List.length_drop, List.length_cons]
    omega

end MaximalMunch

end PL0
