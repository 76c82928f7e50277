/-!
# `PL0.Word` — machine words

Every value the stack machine computes with is a signed 64-bit integer. Values are held as exact
integers (`Int`) beside the range test `Word.InRange`: a result that leaves the range is refused by
`Word.checked`, never wrapped. Levels, slots and code addresses are natural numbers.
-/

namespace PL0.Word

/-- The least word, `-2^63`. -/
def least : Int := -9223372036854775808

/-- The greatest word, `2^63 - 1`. -/
def greatest : Int := 9223372036854775807

/-- Whether `v` is a word. -/
def InRange (v : Int) : Prop := least ≤ v ∧ v ≤ greatest

instance : DecidablePred InRange := fun v => inferInstanceAs (Decidable (least ≤ v ∧ v ≤ greatest))

/-- The integer itself where it is a word, nothing where it is not. -/
def checked (v : Int) : Option Int := if InRange v then some v else none

theorem checked_eq_some_iff {v w : Int} : checked v = some w ↔ InRange v ∧ v = w := by
  unfold checked
  split <;> simp_all

theorem checked_eq_none_iff {v : Int} : checked v = none ↔ ¬ InRange v := by
  unfold checked
  split <;> simp_all

/-- The truth value of a comparison as a word. -/
def ofBool (b : Bool) : Int := if b then 1 else 0

theorem inRange_ofBool (b : Bool) : InRange (ofBool b) := by
  cases b <;> decide

end PL0.Word
