import PL0.Decimal
import PL0.Json
import PL0.Parsed

/-!
# `PL0.Json.Reader` — reading JSON documents

A reader for exactly the JSON grammar: blanks are space, tab, line feed and carriage return; control
characters in strings, unknown escapes, leading zeros, trailing commas and text behind the document
are refused. Escapes are checked for their form only (`Json.text?` tells which strings have a
meaning).
-/

namespace PL0.Json

def isBlank (c : Char) : Bool := c == ' ' || c == '\t' || c == '\n' || c == '\r'

theorem length_dropWhile_le {α : Type} (p : α → Bool) (cs : List α) :
    (cs.dropWhile p).length ≤ cs.length :=
  (List.dropWhile_suffix p).length_le

/-- The first character that is no blank, and the text behind it. -/
def next? : (cs : List Char) → Option (Parsed Char cs)
  | [] => none
  | c :: rest =>
    if isBlank c then (next? rest).map fun p => ⟨p.value, p.rest, by have := p.shorter; simp; omega⟩
    else some ⟨c, rest, by simp⟩

/-! ## Literals -/

/-- Put characters in front of the literal read. -/
def consLiteral {ts us : List Char} (front : List Char) (h : us.length ≤ ts.length)
    (p : Parsed (List Char) us) : Parsed (List Char) ts :=
  ⟨front ++ p.value, p.rest, Nat.lt_of_lt_of_le p.shorter h⟩

/-- A string literal behind its opening quote, up to and with its closing quote. -/
def stringLiteral? : (cs : List Char) → Option (Parsed (List Char) cs)
  | [] => none
  | '"' :: rest => some ⟨[], rest, by simp⟩
  | '\\' :: 'u' :: a :: b :: c :: d :: rest =>
    if (hex4? a b c d).isSome then
      (stringLiteral? rest).map (consLiteral ['\\', 'u', a, b, c, d]
        (List.suffix_append ['\\', 'u', a, b, c, d] rest).length_le)
    else none
  | '\\' :: e :: rest =>
    if (simpleEscape? e).isSome then
      (stringLiteral? rest).map (consLiteral ['\\', e] (List.suffix_append ['\\', e] rest).length_le)
    else none
  | c :: rest =>
    if c = '\\' ∨ c.toNat < 32 then none
    else (stringLiteral? rest).map (consLiteral [c] (List.suffix_append [c] rest).length_le)

/-- A character of a number literal. -/
def isNumberChar (c : Char) : Bool :=
  c.isDigit || c == '-' || c == '+' || c == '.' || c == 'e' || c == 'E'

/-- A run of one or more digits and nothing else. -/
def isDigitRun (cs : List Char) : Bool := !cs.isEmpty && cs.all Char.isDigit

/-- The digits in front of the point: no leading zero. -/
def isWhole : List Char → Bool
  | ['0'] => true
  | '0' :: _ => false
  | cs => isDigitRun cs

/-- The exponent behind its `e`. -/
def isExponent : List Char → Bool
  | '+' :: cs => isDigitRun cs
  | '-' :: cs => isDigitRun cs
  | cs => isDigitRun cs

/-- Nothing, or an exponent. -/
def isExponentPart : List Char → Bool
  | [] => true
  | c :: cs => (c == 'e' || c == 'E') && isExponent cs

/-- Nothing, or a fraction or an exponent or both. -/
def isFractionPart : List Char → Bool
  | '.' :: cs =>
    isDigitRun (cs.takeWhile Char.isDigit) && isExponentPart (cs.dropWhile Char.isDigit)
  | cs => isExponentPart cs

/-- A number literal without a sign. -/
def isUnsignedNumber (cs : List Char) : Bool :=
  isWhole (cs.takeWhile Char.isDigit) && isFractionPart (cs.dropWhile Char.isDigit)

/-- A number literal. -/
def isNumber : List Char → Bool
  | '-' :: cs => isUnsignedNumber cs
  | cs => isUnsignedNumber cs

/-- A number literal that starts with `c`: the longest run of its characters, which must be one. -/
def numberLiteral? (c : Char) (cs : List Char) : Option (ParsedOpt (List Char) cs) :=
  let literal := c :: cs.takeWhile isNumberChar
  if isNumber literal then
    some ⟨literal, cs.dropWhile isNumberChar, length_dropWhile_le isNumberChar cs⟩
  else none

/-- The integer that a number literal denotes: none with a fraction or an exponent, and none for a
negative zero. -/
def literalInteger? (literal : String) : Option Int :=
  if literal = "-0" then none else Decimal.int? literal.toList

/-- The integer of a number. -/
def integer? : Json → Option Int
  | number literal => literalInteger? literal
  | _ => none

/-! ## Documents -/

/-- The document that the word `letters` stands for, behind its first letter. -/
def word? (letters : List Char) (j : Json) (cs : List Char) : Option (ParsedOpt Json cs) :=
  if letters.isPrefixOf cs then some ⟨j, cs.drop letters.length, by simp⟩ else none

mutual

/-- A value, blanks in front of it allowed. -/
def value? (cs : List Char) : Option (Parsed Json cs) := do
  let ⟨c, rest, _⟩ ← next? cs
  match c with
  | '"' =>
    let ⟨literal, rest', _⟩ ← stringLiteral? rest
    return ⟨string (String.ofList literal), rest', by omega⟩
  | '[' =>
    let ⟨c', rest', _⟩ ← next? rest
    if c' = ']' then return ⟨array [], rest', by omega⟩
    else
      let ⟨items, rest'', _⟩ ← items? rest
      return ⟨array items, rest'', by omega⟩
  | '\x7b' =>
    let ⟨c', rest', _⟩ ← next? rest
    if c' = '\x7d' then return ⟨object [], rest', by omega⟩
    else
      let ⟨members, rest'', _⟩ ← members? rest
      return ⟨object members, rest'', by omega⟩
  | 'n' =>
    let ⟨j, rest', _⟩ ← word? ['u', 'l', 'l'] null rest
    return ⟨j, rest', by omega⟩
  | 't' =>
    let ⟨j, rest', _⟩ ← word? ['r', 'u', 'e'] (bool true) rest
    return ⟨j, rest', by omega⟩
  | 'f' =>
    let ⟨j, rest', _⟩ ← word? ['a', 'l', 's', 'e'] (bool false) rest
    return ⟨j, rest', by omega⟩
  | c =>
    let ⟨literal, rest', _⟩ ← numberLiteral? c rest
    return ⟨number (String.ofList literal), rest', by omega⟩
termination_by 2 * cs.length

/-- One or more values with commas between them, up to and with the closing bracket. -/
def items? (cs : List Char) : Option (Parsed (List Json) cs) := do
  let ⟨j, rest, _⟩ ← value? cs
  let ⟨c, rest', _⟩ ← next? rest
  match c with
  | ',' =>
    let ⟨js, rest'', _⟩ ← items? rest'
    return ⟨j :: js, rest'', by omega⟩
  | ']' => return ⟨[j], rest', by omega⟩
  | _ => none
termination_by 2 * cs.length + 1

/-- One or more members with commas between them, up to and with the closing brace. -/
def members? (cs : List Char) : Option (Parsed (List Member) cs) := do
  let ⟨quote, rest, _⟩ ← next? cs
  unless quote = '"' do none
  let ⟨key, rest', _⟩ ← stringLiteral? rest
  let ⟨colon, rest'', _⟩ ← next? rest'
  unless colon = ':' do none
  let ⟨j, rest₃, _⟩ ← value? rest''
  let ⟨c, rest₄, _⟩ ← next? rest₃
  match c with
  | ',' =>
    let ⟨ms, rest₅, _⟩ ← members? rest₄
    return ⟨.mk (String.ofList key) j :: ms, rest₅, by omega⟩
  | '\x7d' => return ⟨[.mk (String.ofList key) j], rest₄, by omega⟩
  | _ => none
termination_by 2 * cs.length

end

/-- The document that `text` consists of, blanks around it allowed. -/
def read? (text : String) : Option Json := do
  let ⟨j, rest, _⟩ ← value? text.toList
  if (next? rest).isNone then some j else none

end PL0.Json
