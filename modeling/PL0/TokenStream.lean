import PL0.Lexer

/-!
# `PL0.TokenStream` — tokens on demand

A token stream scans a text lazily: asked for the next item it takes a completed token if there is
one and otherwise feeds the lexer just as many characters as it needs. The tokens completed before a
lexical error come first, then the error, then nothing; no character behind the one that failed is
looked at.
-/

namespace PL0

/-- A text being scanned on demand. -/
structure TokenStream where
  /-- The characters not yet looked at. -/
  rest : List Char
  lexer : Lexer
  /-- An error that was met and is still to be delivered. -/
  failure : Option LexError
  /-- Whether no further character will be looked at. -/
  done : Bool
deriving DecidableEq, Repr, Inhabited

namespace TokenStream

/-- The stream of a text none of which has been looked at. -/
def ofText (text : String) : TokenStream := ⟨text.toList, Lexer.empty, none, false⟩

/-- A token or an error that is at hand, tokens first. -/
def take? (s : TokenStream) : Option (Except LexError Token × TokenStream) :=
  match s.lexer.next? with
  | some (t, lexer) => some (.ok t, { s with lexer })
  | none =>
    match s.failure with
    | some e => some (.error e, { s with failure := none })
    | none => none

/-- Feed the lexer characters, until a token or an error is at hand or the text has ended. -/
def pull (lexer : Lexer) : List Char → Option (Except LexError Token) × TokenStream
  | [] =>
    let (failure, lexer) := lexer.finish
    let s : TokenStream := ⟨[], lexer, failure, true⟩
    match s.take? with
    | some (item, s) => (some item, s)
    | none => (none, s)
  | c :: rest =>
    let (failure, lexer) := lexer.push c
    let s : TokenStream := ⟨rest, lexer, failure, failure.isSome⟩
    match s.take? with
    | some (item, s) => (some item, s)
    | none => pull lexer rest

/-- The next token or error, nothing once both have run out. -/
def next (s : TokenStream) : Option (Except LexError Token) × TokenStream :=
  match s.take? with
  | some (item, s) => (some item, s)
  | none => if s.done then (none, s) else pull s.lexer s.rest

end TokenStream

end PL0
