/-!
# `PL0.Token` — the lexical alphabet

A token is a lexeme of the source: its kind, the index of its first character, and its text. The
kinds are the punctuation marks, the reserved words, identifiers and numbers. Marks and reserved
words are given by one spelling each (`Mark.spelling`, `Keyword.spelling`); `Kind.classify` finds
the kind of a finished lexeme and answers nothing for a text that is no lexeme.

Main statements: a spelling is found again (`Mark.ofText?_spelling`, `Keyword.ofText?_spelling`),
and only that spelling is found (`Mark.ofText?_eq_some_iff`, `Keyword.ofText?_eq_some_iff`).
-/

namespace PL0

/-- The punctuation marks. -/
inductive Mark where
  | leftParen | rightParen
  | plus | minus | star | slash
  | assign
  | equal | less | lessEqual | greater | greaterEqual | hash
  | semicolon | comma | dot
  | leftBracket | rightBracket
deriving DecidableEq, Repr, Inhabited

namespace Mark

/-- Every mark, once. -/
def all : List Mark :=
  [leftParen, rightParen, plus, minus, star, slash, assign, equal, less, lessEqual, greater,
    greaterEqual, hash, semicolon, comma, dot, leftBracket, rightBracket]

/-- How the mark is written. -/
def spelling : Mark → String
  | leftParen => "("
  | rightParen => ")"
  | plus => "+"
  | minus => "-"
  | star => "*"
  | slash => "/"
  | assign => ":="
  | equal => "="
  | less => "<"
  | lessEqual => "<="
  | greater => ">"
  | greaterEqual => ">="
  | hash => "#"
  | semicolon => ";"
  | comma => ","
  | dot => "."
  | leftBracket => "["
  | rightBracket => "]"

/-- The name of the mark in the trace of the lexer. -/
def name : Mark → String
  | leftParen => "LeftParen"
  | rightParen => "RightParen"
  | plus => "Plus"
  | minus => "Minus"
  | star => "Star"
  | slash => "Slash"
  | assign => "Assign"
  | equal => "Equal"
  | less => "Less"
  | lessEqual => "LessEqual"
  | greater => "Greater"
  | greaterEqual => "GreaterEqual"
  | hash => "Hash"
  | semicolon => "Semicolon"
  | comma => "Comma"
  | dot => "Dot"
  | leftBracket => "LeftBracket"
  | rightBracket => "RightBracket"

/-- The mark written `text`. -/
def ofText? (text : String) : Option Mark := all.find? fun m => m.spelling == text

theorem mem_all (m : Mark) : m ∈ all := by cases m <;> decide

theorem spelling_injective {m n : Mark} (h : m.spelling = n.spelling) : m = n := by
  cases m <;> cases n <;> first | rfl | exact absurd h (by decide)

theorem ofText?_spelling (m : Mark) : ofText? m.spelling = some m := by cases m <;> rfl

theorem ofText?_eq_some_iff {text : String} {m : Mark} :
    ofText? text = some m ↔ text = m.spelling := by
  constructor
  · intro h
    have := List.find?_some h
    exact (beq_iff_eq.1 this).symm
  · rintro rfl
    exact ofText?_spelling m

end Mark

/-- The reserved words. -/
inductive Keyword where
  | constKw | varKw | procedureKw
  | beginKw | endKw | ifKw | thenKw | callKw | whileKw | doKw | readKw | writeKw | oddKw
deriving DecidableEq, Repr, Inhabited

namespace Keyword

/-- Every reserved word, once. -/
def all : List Keyword :=
  [constKw, varKw, procedureKw, beginKw, endKw, ifKw, thenKw, callKw, whileKw, doKw, readKw,
    writeKw, oddKw]

/-- How the word is written; case counts. -/
def spelling : Keyword → String
  | constKw => "const"
  | varKw => "var"
  | procedureKw => "procedure"
  | beginKw => "begin"
  | endKw => "end"
  | ifKw => "if"
  | thenKw => "then"
  | callKw => "call"
  | whileKw => "while"
  | doKw => "do"
  | readKw => "read"
  | writeKw => "write"
  | oddKw => "odd"

/-- The name of the word in the trace of the lexer. -/
def name : Keyword → String
  | constKw => "Const"
  | varKw => "Var"
  | procedureKw => "Procedure"
  | beginKw => "Begin"
  | endKw => "End"
  | ifKw => "If"
  | thenKw => "Then"
  | callKw => "Call"
  | whileKw => "While"
  | doKw => "Do"
  | readKw => "Read"
  | writeKw => "Write"
  | oddKw => "Odd"

/-- The reserved word written `text`. -/
def ofText? (text : String) : Option Keyword := all.find? fun k => k.spelling == text

theorem mem_all (k : Keyword) : k ∈ all := by cases k <;> decide

theorem spelling_injective {j k : Keyword} (h : j.spelling = k.spelling) : j = k := by
  cases j <;> cases k <;> first | rfl | exact absurd h (by decide)

theorem ofText?_spelling (k : Keyword) : ofText? k.spelling = some k := by cases k <;> rfl

theorem ofText?_eq_some_iff {text : String} {k : Keyword} :
    ofText? text = some k ↔ text = k.spelling := by
  constructor
  · intro h
    have := List.find?_some h
    exact (beq_iff_eq.1 this).symm
  · rintro rfl
    exact ofText?_spelling k

end Keyword

/-- The kinds of tokens. -/
inductive Kind where
  | mark (m : Mark)
  | keyword (k : Keyword)
  | identifier
  | number
deriving DecidableEq, Repr, Inhabited

namespace Kind

/-- Every kind, once. -/
def all : List Kind := Mark.all.map mark ++ Keyword.all.map keyword ++ [identifier, number]

/-- How error messages name the kind. -/
def display : Kind → String
  | mark m => m.spelling
  | keyword k => k.spelling
  | identifier => "identifier"
  | number => "number"

/-- How token listings name the kind. -/
def label : Kind → String
  | mark m => m.spelling
  | keyword k => k.spelling
  | identifier => "Identifier"
  | number => "Number"

/-- How the trace of the lexer names the kind. -/
def name : Kind → String
  | mark m => m.name
  | keyword k => k.name
  | identifier => "Identifier"
  | number => "Number"

/-- The kind that token listings name `text`. -/
def ofLabel? (text : String) : Option Kind := all.find? fun k => k.label == text

/-- An identifier has at most this many letters. -/
def maxIdentifierLength : Nat := 10

/-- A letter of an identifier or a reserved word: ASCII only. -/
def isLetter (c : Char) : Bool := c.isAlpha

/-- A digit of a number: ASCII only. -/
def isDigit (c : Char) : Bool := c.isDigit

/-- Whether `text` is a run of one or more digits. -/
def isDigits (text : String) : Bool := !text.isEmpty && text.toList.all isDigit

/-- Whether `text` is a run of letters, neither empty nor too long for an identifier. -/
def isShortWord (text : String) : Bool :=
  !text.isEmpty && text.length ≤ maxIdentifierLength && text.toList.all isLetter

/-- The kind of a finished lexeme: marks and reserved words come before identifiers. -/
def classify (text : String) : Option Kind :=
  match Mark.ofText? text with
  | some m => some (mark m)
  | none =>
    match Keyword.ofText? text with
    | some k => some (keyword k)
    | none =>
      if isDigits text then some number
      else if isShortWord text then some identifier
      else none

end Kind

/-- A lexeme of the source. -/
structure Token where
  kind : Kind
  /-- The index of the first character, counted in characters from 0. -/
  index : Nat
  text : String
deriving DecidableEq, Repr, Inhabited

/-- The token as error messages show it. -/
def Token.display (t : Token) : String := s!"'{t.text}' at index {t.index}"

end PL0
