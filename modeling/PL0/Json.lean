/-!
# `PL0.Json` — JSON documents

A JSON document as a tree. Number and string literals are kept as they are written, strings without
their quotes: a document that is only passed over need not have a value for each of its literals.
What a literal means is asked separately: `Json.text?` for strings, `Json.integer?` for numbers.

`Json.pretty` writes a document over several lines, indented by two blanks.
-/

namespace PL0

mutual

inductive Json where
  | null
  | bool (b : Bool)
  | number (literal : String)
  | string (literal : String)
  | array (items : List Json)
  | object (members : List Json.Member)

/-- A member of an object: its key, as written between its quotes, and its value. -/
inductive Json.Member where
  | mk (key : String) (value : Json)

end

namespace Json

namespace Member

def key : Member → String
  | mk key _ => key

def value : Member → Json
  | mk _ value => value

end Member

/-! ## String literals -/

/-- The digit of a number below 16, in lower case. -/
def hexDigit (n : Nat) : Char := if n < 10 then Char.ofNat (48 + n) else Char.ofNat (87 + n)

/-- The value of a hexadecimal digit. -/
def hexValue? (c : Char) : Option Nat :=
  if '0' ≤ c ∧ c ≤ '9' then some (c.toNat - 48)
  else if 'a' ≤ c ∧ c ≤ 'f' then some (c.toNat - 87)
  else if 'A' ≤ c ∧ c ≤ 'F' then some (c.toNat - 55)
  else none

/-- The value of four hexadecimal digits. -/
def hex4? (a b c d : Char) : Option Nat := do
  let a ← hexValue? a
  let b ← hexValue? b
  let c ← hexValue? c
  let d ← hexValue? d
  return ((a * 16 + b) * 16 + c) * 16 + d

/-- The character that a backslash and `c` stand for. -/
def simpleEscape? (c : Char) : Option Char :=
  match c with
  | '"' => some '"'
  | '\\' => some '\\'
  | '/' => some '/'
  | 'b' => some '\x08'
  | 'f' => some '\x0c'
  | 'n' => some '\n'
  | 'r' => some '\r'
  | 't' => some '\t'
  | _ => none

/-- A character as it is written in a string literal: quotes, backslashes and control characters are
escaped, all others stand for themselves. -/
def escapeChar (c : Char) : List Char :=
  match c with
  | '"' => ['\\', '"']
  | '\\' => ['\\', '\\']
  | '\x08' => ['\\', 'b']
  | '\x0c' => ['\\', 'f']
  | '\n' => ['\\', 'n']
  | '\r' => ['\\', 'r']
  | '\t' => ['\\', 't']
  | c =>
    if c.toNat < 32 then ['\\', 'u', '0', '0', hexDigit (c.toNat / 16), hexDigit (c.toNat % 16)]
    else [c]

/-- The string literal of a text. -/
def escape (text : String) : String := String.ofList (text.toList.flatMap escapeChar)

/-- The high and the low half of a surrogate pair. -/
def isHighSurrogate (n : Nat) : Bool := 0xD800 ≤ n && n < 0xDC00

def isLowSurrogate (n : Nat) : Bool := 0xDC00 ≤ n && n < 0xE000

/-- The characters that a string literal stands for. A surrogate that is not one of a pair stands
for nothing. -/
def unescape? : List Char → Option (List Char)
  | [] => some []
  | '\\' :: 'u' :: a :: b :: c :: d :: rest => do
    let n ← hex4? a b c d
    if isHighSurrogate n then
      match rest with
      | '\\' :: 'u' :: e :: f :: g :: h :: rest' => do
        let m ← hex4? e f g h
        if isLowSurrogate m then
          let cs ← unescape? rest'
          return Char.ofNat (0x10000 + (n - 0xD800) * 0x400 + (m - 0xDC00)) :: cs
        else none
      | _ => none
    else if isLowSurrogate n then none
    else
      let cs ← unescape? rest
      return Char.ofNat n :: cs
  | '\\' :: e :: rest => do
    let c ← simpleEscape? e
    let cs ← unescape? rest
    return c :: cs
  | c :: rest => do
    let cs ← unescape? rest
    return c :: cs

/-- The text that a string literal stands for. -/
def literalText? (literal : String) : Option String :=
  (unescape? literal.toList).map String.ofList

/-- The text of a string. -/
def text? : Json → Option String
  | string literal => literalText? literal
  | _ => none

/-- The string of a text. -/
def ofText (text : String) : Json := string (escape text)

/-- The number of a natural number. -/
def ofNat (n : Nat) : Json := number (toString n)

/-- The number of an integer. -/
def ofInt (n : Int) : Json := number (toString n)

/-! ## Writing -/

/-- The blanks in front of a line. -/
def indent (depth : Nat) : String := String.ofList (List.replicate (2 * depth) ' ')

/-- A literal between quotes. -/
def quoted (literal : String) : String := "\"" ++ literal ++ "\""

/-- The parts of an array or an object, each on its own lines; the empty one on a single line. -/
def bracketed (opening closing : String) (depth : Nat) (parts : List String) : String :=
  if parts.isEmpty then opening ++ closing
  else
    opening ++ "\n" ++ String.intercalate ",\n" (parts.map fun p => indent (depth + 1) ++ p) ++
      "\n" ++ indent depth ++ closing

mutual

/-- The text of a document whose first line is already indented to `depth`. -/
def write (depth : Nat) : Json → String
  | null => "null"
  | bool b => if b then "true" else "false"
  | number literal => literal
  | string literal => quoted literal
  | array items => bracketed "[" "]" depth (writeItems (depth + 1) items)
  | object members => bracketed "\x7b" "\x7d" depth (writeMembers (depth + 1) members)

def writeItems (depth : Nat) : List Json → List String
  | [] => []
  | j :: js => j.write depth :: writeItems depth js

def writeMembers (depth : Nat) : List Member → List String
  | [] => []
  | .mk key value :: ms => (quoted key ++ ": " ++ value.write depth) :: writeMembers depth ms

end

/-- The document over several lines, without a final line break. -/
def pretty (j : Json) : String := j.write 0

end Json

end PL0
