import PL0.Word

/-!
# `PL0.Decimal` — decimal numerals

Reading integers from their decimal text. A numeral is a non-empty run of the ASCII digits, leading
zeros allowed; a signed numeral may have one `+` or `-` in front. `word?` accepts exactly the signed
numerals whose value is a word. Numbers are written by `toString`, which `nat?_toDigits` shows to be
read back.
-/

namespace PL0.Decimal

/-- The value of a non-empty run of digits. -/
def nat? (cs : List Char) : Option Nat :=
  if !cs.isEmpty && cs.all Char.isDigit then some (Nat.ofDigitChars 10 cs 0) else none

/-- The value of a signed numeral. -/
def int? : List Char → Option Int
  | '-' :: cs => (nat? cs).map fun n => -(n : Int)
  | '+' :: cs => (nat? cs).map fun n => (n : Int)
  | cs => (nat? cs).map fun n => (n : Int)

/-- The value of a signed numeral that denotes a word. -/
def word? (text : String) : Option Int := (int? text.toList).bind Word.checked

/-- The digits of a number are read back as that number. -/
theorem nat?_toDigits (n : Nat) : nat? (Nat.toDigits 10 n) = some n := by
  have hall : (Nat.toDigits 10 n).all Char.isDigit = true := by
    rw [List.all_eq_true]
    exact fun c hc => Nat.isDigit_of_mem_toDigits (by decide) (by decide) hc
  simp [nat?, hall, Nat.toDigits_ne_nil, Nat.ofDigitChars_ten_toDigits]

/-- A value read as a word is one. -/
theorem inRange_of_word? {text : String} {v : Int} (h : word? text = some v) : Word.InRange v := by
  unfold word? at h
  obtain ⟨w, _, hw⟩ := Option.bind_eq_some_iff.1 h
  obtain ⟨hr, rfl⟩ := Word.checked_eq_some_iff.1 hw
  exact hr

end PL0.Decimal
