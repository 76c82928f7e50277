import PL0.Decimal
import PL0.Token

/-!
# `PL0.Lexer` — from characters to tokens

A lexer is fed one character at a time (`push`) and told when the text ends (`finish`); the tokens
it has completed wait in order until they are taken (`next?`). Between characters it holds at most
one unfinished lexeme, `Pending`: a mark that `=` may still lengthen, a run of letters or a run of
digits. A character that cannot lengthen the pending lexeme completes it and is then looked at
afresh.

A lexeme that turns out to be no token (a lone `:`, a word of more than ten letters, a number beyond
a word) is reported at its first character and dropped; the character that ended it is dropped with
it. After an error, as after `finish`, nothing is pending and the lexer may be used further.

`Lexer.run` scans a whole text up to its first error.
-/

namespace PL0

/-- Why a text is not a sequence of tokens. -/
inductive LexError.Cause where
  /-- A character that no token starts with. -/
  | unexpectedCharacter (c : Char)
  /-- A lexeme that is no token. -/
  | invalidToken (text : String)
  /-- A run of digits whose value is no word. -/
  | numberOutOfRange (text : String)
deriving DecidableEq, Repr, Inhabited

/-- What was wrong, and the index of the first character concerned. -/
structure LexError where
  index : Nat
  cause : LexError.Cause
deriving DecidableEq, Repr, Inhabited

namespace LexError

def Cause.message : Cause → String
  | unexpectedCharacter c => s!"Unexpected character '{c}'"
  | invalidToken text => s!"Invalid token '{text}'"
  | numberOutOfRange text => s!"Number '{text}' out of range"

def message (e : LexError) : String := s!"index {e.index}: {e.cause.message}"

end LexError

/-- The marks that a following `=` lengthens. -/
inductive Opening where
  | less | greater | colon
deriving DecidableEq, Repr, Inhabited

namespace Opening

def char : Opening → Char
  | less => '<'
  | greater => '>'
  | colon => ':'

def ofChar? : Char → Option Opening
  | '<' => some less
  | '>' => some greater
  | ':' => some colon
  | _ => none

end Opening

/-- The unfinished lexeme: where it starts, and what has been read of it. -/
inductive Pending where
  | none
  | opening (start : Nat) (o : Opening)
  | word (start : Nat) (letters : String)
  | digits (start : Nat) (run : String)
deriving DecidableEq, Repr, Inhabited

/-- The characters of the unfinished lexeme. -/
def Pending.text : Pending → String
  | none => ""
  | opening _ o => String.singleton o.char
  | word _ letters => letters
  | digits _ run => run

/-- A lexer in the middle of a text. -/
structure Lexer where
  pending : Pending
  /-- The index of the next character to be pushed. -/
  cursor : Nat
  /-- The tokens completed and not yet taken, oldest first. -/
  ready : List Token
deriving DecidableEq, Repr, Inhabited

namespace Lexer

/-- A lexer before the first character. -/
def empty : Lexer := ⟨.none, 0, []⟩

/-- The token of a finished lexeme that starts at `start`. -/
def token (start : Nat) (text : String) : Except LexError Token :=
  match Kind.classify text with
  | none => .error ⟨start, .invalidToken text⟩
  | some kind =>
    if kind = .number ∧ Decimal.word? text = none then .error ⟨start, .numberOutOfRange text⟩
    else .ok ⟨kind, start, text⟩

/-- Complete the lexeme `text` that starts at `start`; nothing is pending afterwards. -/
def flush (l : Lexer) (start : Nat) (text : String) : Option LexError × Lexer :=
  match token start text with
  | .ok t => (none, { l with pending := .none, ready := l.ready ++ [t] })
  | .error e => (some e, { l with pending := .none })

/-- The blanks between lexemes: space and the two line breaks. -/
def isBlank (c : Char) : Bool := c == ' ' || c == '\r' || c == '\n'

/-- The marks that are complete with one character. -/
def isLoneMark (c : Char) : Bool :=
  ['(', ')', '+', '-', '*', '/', '=', ';', ',', '#', '[', ']', '.'].contains c

/-- Look at a character with nothing pending. -/
def start (l : Lexer) (index : Nat) (c : Char) : Option LexError × Lexer :=
  if isLoneMark c then l.flush index (String.singleton c)
  else
    match Opening.ofChar? c with
    | some o => (none, { l with pending := .opening index o })
    | none =>
      if isBlank c then (none, l)
      else if Kind.isLetter c then (none, { l with pending := .word index (String.singleton c) })
      else if Kind.isDigit c then (none, { l with pending := .digits index (String.singleton c) })
      else (some ⟨index, .unexpectedCharacter c⟩, l)

/-- Complete the pending lexeme, then look at the character that ended it, unless that failed. -/
def flushThenStart (l : Lexer) (start : Nat) (text : String) (index : Nat) (c : Char) :
    Option LexError × Lexer :=
  match l.flush start text with
  | (some e, l) => (some e, l)
  | (none, l) => l.start index c

/-- Feed the next character. -/
def push (l : Lexer) (c : Char) : Option LexError × Lexer :=
  let index := l.cursor
  let l := { l with cursor := l.cursor + 1 }
  match l.pending with
  | .none => l.start index c
  | .opening start o =>
    if c == '=' then l.flush start (String.ofList [o.char, '='])
    else l.flushThenStart start (String.singleton o.char) index c
  | .word start letters =>
    if Kind.isLetter c then (none, { l with pending := .word start (letters.push c) })
    else l.flushThenStart start letters index c
  | .digits start run =>
    if Kind.isDigit c then (none, { l with pending := .digits start (run.push c) })
    else l.flushThenStart start run index c

/-- The text ends here: complete the pending lexeme, if there is one. -/
def finish (l : Lexer) : Option LexError × Lexer :=
  match l.pending with
  | .none => (none, l)
  | .opening start o => l.flush start (String.singleton o.char)
  | .word start letters => l.flush start letters
  | .digits start run => l.flush start run

/-- Take the oldest completed token. -/
def next? (l : Lexer) : Option (Token × Lexer) :=
  match l.ready with
  | [] => none
  | t :: ready => some (t, { l with ready })

/-- Take every completed token, oldest first. -/
def drain (l : Lexer) : List Token × Lexer := (l.ready, { l with ready := [] })

/-- Push a text up to its first error and finish it, taking the tokens as they are completed.
Answers the tokens completed before the error, or before the end. -/
def runFrom (l : Lexer) : List Char → List Token × Option LexError
  | [] =>
    match l.finish with
    | (e, l) => (l.ready, e)
  | c :: cs =>
    match l.push c with
    | (some e, l) => (l.ready, some e)
    | (none, l) =>
      match runFrom { l with ready := [] } cs with
      | (ts, e) => (l.ready ++ ts, e)

/-- The tokens of `text` up to its first error, and that error. -/
def run (text : String) : List Token × Option LexError := empty.runFrom text.toList

/-- All tokens of `text`, or its first error. -/
def scan (text : String) : Except LexError (List Token) :=
  match run text with
  | (ts, none) => .ok ts
  | (_, some e) => .error e

end Lexer

end PL0
