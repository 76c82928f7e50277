import PL0.Decimal
import PL0.Parsed
import PL0.Token
import PL0.Tree

/-!
# `PL0.Grammar` — from tokens to trees

The grammar, one function for each phrase:

```
program    → block "."
block      → ("const" constDecl ("," constDecl)* ";")?  ("var" IDENT ("," IDENT)* ";")?
             ("procedure" IDENT ";" block ";")*  statement
constDecl  → IDENT "=" NUMBER
statement  → "begin" statement (";" statement)* "end"  |  "while" condition "do" statement
           | "if" condition "then" statement           |  "read" "(" IDENT ("," IDENT)* ")"
           | "write" "(" expr ("," expr)* ")"          |  "call" IDENT
           | IDENT ":=" expr                           |  ε
condition  → "odd" expr  |  expr ("=" | "#" | "<" | "<=" | ">" | ">=") expr
expr       → ("+" | "-")? terms
terms      → term (("+" | "-") term)*
term       → factor (("*" | "/") factor)*
factor     → "(" expr ")"  |  NUMBER  |  IDENT
```

One token decides which alternative to follow; only an assignment needs a second one, since an
identifier that `:=` does not follow leaves the statement empty. A phrase that cannot go on is
reported with the token it stopped at. Of a token's text only identifiers and numbers make use, and
the text of a number may be any signed numeral that denotes a word.
-/

namespace PL0

/-- Why a list of tokens is not a program. -/
inductive SyntaxError.Cause where
  /-- A token of this kind was required. -/
  | expected (k : Kind)
  | expectedFactor
  | expectedRelation
  /-- Tokens follow the final dot. -/
  | trailingInput
  /-- The text of a number is no signed numeral that denotes a word. -/
  | invalidNumber
deriving DecidableEq, Repr, Inhabited

/-- What was wrong, and the token at which it was noticed: none at the end of the tokens. -/
structure SyntaxError where
  found : Option Token
  cause : SyntaxError.Cause
deriving DecidableEq, Repr, Inhabited

namespace SyntaxError

def Cause.message : Cause → String
  | expected k => s!"Expected '{k.display}'"
  | expectedFactor => "Expected '(', number or identifier"
  | expectedRelation => "Expected relational operator"
  | trailingInput => "Expected end of input after '.'"
  | invalidNumber => "Invalid number literal"

def message (e : SyntaxError) : String :=
  match e.found with
  | some t => s!"{e.cause.message}, found {t.display}"
  | none => s!"{e.cause.message}, found end of input"

end SyntaxError

namespace Grammar

/-- The phrase that a reader finds at the front of `ts`. -/
abbrev Reading (α : Type) (ts : List Token) := Except SyntaxError (Parsed α ts)

/-- The phrase, possibly empty, that a reader finds at the front of `ts`. -/
abbrev ReadingOpt (α : Type) (ts : List Token) := Except SyntaxError (ParsedOpt α ts)

/-- The next token, which must be of kind `k`. -/
def expect (k : Kind) : (ts : List Token) → Reading Token ts
  | [] => .error ⟨none, .expected k⟩
  | t :: rest => if t.kind = k then .ok ⟨t, rest, by simp⟩ else .error ⟨some t, .expected k⟩

def ident (ts : List Token) : Reading Ident ts := do
  let t ← expect .identifier ts
  return t.map fun t => ⟨t.text, t.index⟩

def numeral (ts : List Token) : Reading Numeral ts := do
  let ⟨t, rest, h⟩ ← expect .number ts
  match Decimal.word? t.text with
  | some value => return ⟨⟨value, t.index⟩, rest, h⟩
  | none => throw ⟨some t, .invalidNumber⟩

/-- One or more phrases with commas between them. -/
def commaSeparated {α : Type} (item : (ts : List Token) → Reading α ts) (ts : List Token) :
    Reading (List α) ts := do
  let ⟨x, rest, h⟩ ← item ts
  match rest, h with
  | [], h => return ⟨[x], [], h⟩
  | t :: rest', h =>
    if t.kind = .mark .comma then do
      let ⟨xs, rest'', _⟩ ← commaSeparated item rest'
      return ⟨x :: xs, rest'', by simp at h; omega⟩
    else return ⟨[x], t :: rest', h⟩
termination_by ts.length
decreasing_by simp at h; omega

/-! ## Expressions -/

/-- The sign that the token stands for in front of an expression. -/
def sign? (t : Token) : Option Sign :=
  match t.kind with
  | .mark .plus => some .plus
  | .mark .minus => some .minus
  | _ => none

/-- The operator that the token stands for between terms. -/
def addOp? (t : Token) : Option AddOp :=
  match t.kind with
  | .mark .plus => some .add
  | .mark .minus => some .sub
  | _ => none

/-- The operator that the token stands for between factors. -/
def mulOp? (t : Token) : Option MulOp :=
  match t.kind with
  | .mark .star => some .mul
  | .mark .slash => some .div
  | _ => none

/-- The relation that the token stands for. -/
def relation? (t : Token) : Option Relation :=
  match t.kind with
  | .mark .equal => some .eq
  | .mark .hash => some .ne
  | .mark .less => some .lt
  | .mark .lessEqual => some .le
  | .mark .greater => some .gt
  | .mark .greaterEqual => some .ge
  | _ => none

mutual

def expr (ts : List Token) : Reading Expr ts :=
  match ts with
  | [] => .error ⟨none, .expectedFactor⟩
  | t :: rest =>
    match sign? t with
    | some s => do
      let ⟨e, rest', _⟩ ← terms rest
      return ⟨.mk (some s) e, rest', by simp; omega⟩
    | none => do
      let ⟨e, rest', h⟩ ← terms (t :: rest)
      return ⟨.mk none e, rest', h⟩
termination_by 5 * ts.length + 4

def terms (ts : List Token) : Reading Terms ts := do
  let ⟨t, rest, _⟩ ← term ts
  let ⟨e, rest', _⟩ ← moreTerms (.single t) rest
  return ⟨e, rest', by omega⟩
termination_by 5 * ts.length + 3

/-- The terms that follow `left`. -/
def moreTerms (left : Terms) (ts : List Token) : ReadingOpt Terms ts :=
  match ts with
  | [] => .ok ⟨left, [], by simp⟩
  | t :: rest =>
    match addOp? t with
    | some op => do
      let ⟨right, rest', _⟩ ← term rest
      let ⟨e, rest'', _⟩ ← moreTerms (.join left op right) rest'
      return ⟨e, rest'', by simp; omega⟩
    | none => .ok ⟨left, t :: rest, by simp⟩
termination_by 5 * ts.length

def term (ts : List Token) : Reading Term ts := do
  let ⟨f, rest, _⟩ ← factor ts
  let ⟨t, rest', _⟩ ← moreFactors (.single f) rest
  return ⟨t, rest', by omega⟩
termination_by 5 * ts.length + 2

/-- The factors that follow `left`. -/
def moreFactors (left : Term) (ts : List Token) : ReadingOpt Term ts :=
  match ts with
  | [] => .ok ⟨left, [], by simp⟩
  | t :: rest =>
    match mulOp? t with
    | some op => do
      let ⟨right, rest', _⟩ ← factor rest
      let ⟨e, rest'', _⟩ ← moreFactors (.join left op right) rest'
      return ⟨e, rest'', by simp; omega⟩
    | none => .ok ⟨left, t :: rest, by simp⟩
termination_by 5 * ts.length

def factor (ts : List Token) : Reading Factor ts :=
  match ts with
  | [] => .error ⟨none, .expectedFactor⟩
  | t :: rest =>
    match t.kind with
    | .mark .leftParen => do
      let ⟨e, rest', _⟩ ← expr rest
      let ⟨_, rest'', _⟩ ← expect (.mark .rightParen) rest'
      return ⟨.group e, rest'', by simp; omega⟩
    | .number => do
      let n ← numeral (t :: rest)
      return n.map .number
    | .identifier => do
      let x ← ident (t :: rest)
      return x.map .ident
    | _ => .error ⟨some t, .expectedFactor⟩
termination_by 5 * ts.length + 1

end

def relation (ts : List Token) : Reading Relation ts :=
  match ts with
  | [] => .error ⟨none, .expectedRelation⟩
  | t :: rest =>
    match relation? t with
    | some r => .ok ⟨r, rest, by simp⟩
    | none => .error ⟨some t, .expectedRelation⟩

/-- The relation of two expressions. -/
def comparison (ts : List Token) : Reading Condition ts := do
  let ⟨l, rest, _⟩ ← expr ts
  let ⟨r, rest', _⟩ ← relation rest
  let ⟨e, rest'', _⟩ ← expr rest'
  return ⟨.compare l r e, rest'', by omega⟩

def condition (ts : List Token) : Reading Condition ts :=
  match ts with
  | [] => comparison []
  | t :: rest =>
    if t.kind = .keyword .oddKw then do
      let ⟨e, rest', _⟩ ← expr rest
      return ⟨.odd e, rest', by simp; omega⟩
    else comparison (t :: rest)

/-! ## Statements -/

/-- The phrases in parentheses, one or more with commas between them. -/
def parenthesized {α : Type} (item : (ts : List Token) → Reading α ts) (ts : List Token) :
    Reading (List α) ts := do
  let ⟨_, rest, _⟩ ← expect (.mark .leftParen) ts
  let ⟨xs, rest', _⟩ ← commaSeparated item rest
  let ⟨_, rest'', _⟩ ← expect (.mark .rightParen) rest'
  return ⟨xs, rest'', by omega⟩

/-- An expression and the assignment of its value to `target`. -/
def assignment (target : Token) (ts : List Token) : Reading Statement ts := do
  let ⟨e, rest, h⟩ ← expr ts
  return ⟨.assign ⟨target.text, target.index⟩ e, rest, h⟩

mutual

def statement (ts : List Token) : ReadingOpt Statement ts :=
  match ts with
  | [] => .ok ⟨.empty, [], by simp⟩
  | t :: rest =>
    match t.kind with
    | .keyword .beginKw => do
      let ⟨body, rest', _⟩ ← statements rest
      let ⟨_, rest'', _⟩ ← expect (.keyword .endKw) rest'
      return ⟨.block body, rest'', by simp; omega⟩
    | .keyword .whileKw => do
      let ⟨c, rest', _⟩ ← condition rest
      let ⟨_, rest'', _⟩ ← expect (.keyword .doKw) rest'
      let ⟨body, rest''', _⟩ ← statement rest''
      return ⟨.whileDo c body, rest''', by simp; omega⟩
    | .keyword .ifKw => do
      let ⟨c, rest', _⟩ ← condition rest
      let ⟨_, rest'', _⟩ ← expect (.keyword .thenKw) rest'
      let ⟨body, rest''', _⟩ ← statement rest''
      return ⟨.ifThen c body, rest''', by simp; omega⟩
    | .keyword .readKw => do
      let ⟨targets, rest', _⟩ ← parenthesized ident rest
      return ⟨.read targets, rest', by simp; omega⟩
    | .keyword .writeKw => do
      let ⟨values, rest', _⟩ ← parenthesized expr rest
      return ⟨.write values, rest', by simp; omega⟩
    | .keyword .callKw => do
      let ⟨callee, rest', _⟩ ← ident rest
      return ⟨.call callee, rest', by simp; omega⟩
    | .identifier =>
      match rest with
      | [] => .ok ⟨.empty, [t], by simp⟩
      | t' :: rest' =>
        if t'.kind = .mark .assign then do
          let ⟨s, rest'', _⟩ ← assignment t rest'
          return ⟨s, rest'', by simp; omega⟩
        else .ok ⟨.empty, t :: t' :: rest', by simp⟩
    | _ => .ok ⟨.empty, t :: rest, by simp⟩
termination_by 2 * ts.length

/-- One or more statements with semicolons between them. -/
def statements (ts : List Token) : ReadingOpt (List Statement) ts := do
  let ⟨s, rest, h⟩ ← statement ts
  match rest, h with
  | [], h => return ⟨[s], [], h⟩
  | t :: rest', h =>
    if t.kind = .mark .semicolon then do
      let ⟨ss, rest'', _⟩ ← statements rest'
      return ⟨s :: ss, rest'', by simp at h; omega⟩
    else return ⟨[s], t :: rest', h⟩
termination_by 2 * ts.length + 1

end

/-! ## Declarations -/

def constDecl (ts : List Token) : Reading ConstDecl ts := do
  let ⟨name, rest, _⟩ ← ident ts
  let ⟨_, rest', _⟩ ← expect (.mark .equal) rest
  let ⟨value, rest'', _⟩ ← numeral rest'
  return ⟨⟨name, value⟩, rest'', by omega⟩

/-- The declarations that the word `k` introduces; an empty list without that word. -/
def declarations {α : Type} (k : Keyword) (item : (ts : List Token) → Reading α ts)
    (ts : List Token) : ReadingOpt (List α) ts :=
  match ts with
  | [] => .ok ⟨[], [], by simp⟩
  | t :: rest =>
    if t.kind = .keyword k then do
      let ⟨ds, rest', _⟩ ← commaSeparated item rest
      let ⟨_, rest'', _⟩ ← expect (.mark .semicolon) rest'
      return ⟨ds, rest'', by simp; omega⟩
    else .ok ⟨[], t :: rest, by simp⟩

/-- The name of a procedure and the semicolon behind it. -/
def procedureName (ts : List Token) : Reading Ident ts := do
  let ⟨name, rest, _⟩ ← ident ts
  let ⟨_, rest', _⟩ ← expect (.mark .semicolon) rest
  return ⟨name, rest', by omega⟩

mutual

def block (ts : List Token) : ReadingOpt Block ts := do
  let ⟨consts, rest, _⟩ ← declarations .constKw constDecl ts
  let ⟨vars, rest', _⟩ ← declarations .varKw ident rest
  let ⟨ps, rest'', _⟩ ← procedures rest'
  let ⟨body, rest''', _⟩ ← statement rest''
  return ⟨.mk consts vars ps body, rest''', by omega⟩
termination_by 2 * ts.length + 1

/-- As many procedures as there are words `procedure`. -/
def procedures (ts : List Token) : ReadingOpt (List Procedure) ts :=
  match ts with
  | [] => .ok ⟨[], [], by simp⟩
  | t :: rest =>
    if t.kind = .keyword .procedureKw then do
      let ⟨name, rest', _⟩ ← procedureName rest
      let ⟨body, rest'', _⟩ ← block rest'
      let ⟨_, rest''', _⟩ ← expect (.mark .semicolon) rest''
      let ⟨ps, rest'''', _⟩ ← procedures rest'''
      return ⟨.mk name body :: ps, rest'''', by simp; omega⟩
    else .ok ⟨[], t :: rest, by simp⟩
termination_by 2 * ts.length

end

end Grammar

/-- The program whose tokens are exactly `ts`. -/
def Program.ofTokens (ts : List Token) : Except SyntaxError Program := do
  let ⟨block, rest, _⟩ ← Grammar.block ts
  let ⟨_, rest', _⟩ ← Grammar.expect (.mark .dot) rest
  match rest' with
  | [] => return ⟨block⟩
  | t :: _ => throw ⟨some t, .trailingInput⟩

end PL0
