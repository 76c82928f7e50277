import PL0.Word

/-!
# `PL0.Operator` — signs, arithmetic and relations

The operators of the language and of the machine, with their symbols. The language has a leading
sign, two additive and two multiplicative operators, and six relations; the machine joins the four
arithmetic operators, the six relations and `odd` in one type, `Operator`.
-/

namespace PL0

/-- A sign in front of an expression. -/
inductive Sign where
  | plus | minus
deriving DecidableEq, Repr, Inhabited

def Sign.symbol : Sign → String
  | plus => "+"
  | minus => "-"

/-- The four operators on words. -/
inductive Arith where
  | add | sub | mul | div
deriving DecidableEq, Repr, Inhabited

def Arith.symbol : Arith → String
  | add => "+"
  | sub => "-"
  | mul => "*"
  | div => "/"

/-- The operators that join terms. -/
inductive AddOp where
  | add | sub
deriving DecidableEq, Repr, Inhabited

def AddOp.arith : AddOp → Arith
  | add => .add
  | sub => .sub

def AddOp.symbol (op : AddOp) : String := op.arith.symbol

/-- The operators that join factors. -/
inductive MulOp where
  | mul | div
deriving DecidableEq, Repr, Inhabited

def MulOp.arith : MulOp → Arith
  | mul => .mul
  | div => .div

def MulOp.symbol (op : MulOp) : String := op.arith.symbol

/-- The six relations between words. -/
inductive Relation where
  | eq | ne | lt | le | gt | ge
deriving DecidableEq, Repr, Inhabited

namespace Relation

def symbol : Relation → String
  | eq => "="
  | ne => "#"
  | lt => "<"
  | le => "<="
  | gt => ">"
  | ge => ">="

/-- Whether the relation holds between its left and its right operand. -/
def holds : Relation → Int → Int → Bool
  | eq, l, r => l == r
  | ne, l, r => l != r
  | lt, l, r => l < r
  | le, l, r => l ≤ r
  | gt, l, r => l > r
  | ge, l, r => l ≥ r

end Relation

/-- What an operation of the machine applies to the operand stack. -/
inductive Operator where
  | arith (op : Arith)
  | relation (r : Relation)
  /-- Whether the top is odd; the only operator with one operand. -/
  | odd
deriving DecidableEq, Repr, Inhabited

namespace Operator

/-- Every operator, once. -/
def all : List Operator :=
  [arith .add, arith .sub, arith .mul, arith .div, relation .eq, relation .ne, relation .lt,
    relation .le, relation .gt, relation .ge, odd]

def symbol : Operator → String
  | arith op => op.symbol
  | relation r => r.symbol
  | odd => "odd"

/-- The operator written `text`. -/
def ofSymbol? (text : String) : Option Operator := all.find? fun op => op.symbol == text

theorem mem_all (op : Operator) : op ∈ all := by
  cases op with
  | arith op => cases op <;> decide
  | relation r => cases r <;> decide
  | odd => decide

theorem ofSymbol?_symbol (op : Operator) : ofSymbol? op.symbol = some op := by
  cases op with
  | arith op => cases op <;> rfl
  | relation r => cases r <;> rfl
  | odd => rfl

end Operator

end PL0
