import PL0.Decimal

/-!
# `Numeral` — what a decimal numeral denotes

A numeral is a run of digits, perhaps with a sign in front (`Decimal.Denotes`). The readers of
`PL0.Decimal` accept exactly the numerals (`int?_eq_some_iff`), `word?` exactly those whose value is
a word (`word?_eq_some_iff`), and every integer is written as a numeral (`denotes_toString`).
-/

namespace PL0.Decimal

/-- One or more digits with the value `n`. -/
def IsDigits (cs : List Char) (n : Nat) : Prop :=
  cs ≠ [] ∧ (∀ c ∈ cs, c.isDigit = true) ∧ Nat.ofDigitChars 10 cs 0 = n

/-- Digits, perhaps with a sign in front, that denote `v`. -/
inductive Denotes : List Char → Int → Prop where
  | unsigned {cs : List Char} {n : Nat} : IsDigits cs n → Denotes cs n
  | plus {cs : List Char} {n : Nat} : IsDigits cs n → Denotes ('+' :: cs) n
  | minus {cs : List Char} {n : Nat} : IsDigits cs n → Denotes ('-' :: cs) (-n)

/-- A character of a numeral. -/
def isSignOrDigit (c : Char) : Bool := c == '+' || c == '-' || c.isDigit

theorem Denotes.forall_mem {cs : List Char} {v : Int} (h : Denotes cs v) :
    ∀ c ∈ cs, isSignOrDigit c := by
  have hdigits {ds : List Char} {n : Nat} (hds : IsDigits ds n) : ∀ c ∈ ds, isSignOrDigit c := by
    intro c hc
    simp [isSignOrDigit, hds.2.1 c hc]
  cases h with
  | unsigned hds => exact hdigits hds
  | plus hds => exact List.forall_mem_cons.2 ⟨by decide, hdigits hds⟩
  | minus hds => exact List.forall_mem_cons.2 ⟨by decide, hdigits hds⟩

/-- A numeral is no run of signs. -/
theorem Denotes.exists_digit {cs : List Char} {v : Int} (h : Denotes cs v) :
    ∃ c ∈ cs, c.isDigit := by
  have hdigit {ds : List Char} {n : Nat} (hds : IsDigits ds n) : ∃ c ∈ ds, c.isDigit := by
    obtain ⟨c, hc⟩ := List.exists_mem_of_ne_nil ds hds.1
    exact ⟨c, hc, hds.2.1 c hc⟩
  cases h with
  | unsigned hds => exact hdigit hds
  | plus hds | minus hds =>
    obtain ⟨c, hc, hd⟩ := hdigit hds
    exact ⟨c, List.mem_cons_of_mem _ hc, hd⟩

theorem nat?_eq_some_iff {cs : List Char} {n : Nat} : nat? cs = some n ↔ IsDigits cs n := by
  unfold nat? IsDigits
  cases cs with
  | nil => simp
  | cons c cs => simp [and_assoc]

theorem int?_of_unsigned {cs : List Char} {n : Nat} (h : IsDigits cs n) :
    int? cs = some (n : Int) := by
  -- A sign is no digit, so digits are read by the last equation.
  unfold int?
  split
  · exact absurd (h.2.1 '-' (List.mem_cons_self ..)) (by decide)
  · exact absurd (h.2.1 '+' (List.mem_cons_self ..)) (by decide)
  · simp [nat?_eq_some_iff.2 h]

/-- **Reading a numeral finds what it denotes**, and only numerals are read. -/
theorem int?_eq_some_iff {cs : List Char} {v : Int} : int? cs = some v ↔ Denotes cs v := by
  constructor
  · intro h
    unfold int? at h
    split at h
    · obtain ⟨n, hn, ⟨⟩⟩ := Option.bind_eq_some_iff.1 (by simpa using h)
      exact .minus (nat?_eq_some_iff.1 hn)
    · obtain ⟨n, hn, ⟨⟩⟩ := Option.bind_eq_some_iff.1 (by simpa using h)
      exact .plus (nat?_eq_some_iff.1 hn)
    · obtain ⟨n, hn, ⟨⟩⟩ := Option.bind_eq_some_iff.1 (by simpa using h)
      exact .unsigned (nat?_eq_some_iff.1 hn)
  · intro h
    cases h with
    | unsigned h => exact int?_of_unsigned h
    | plus h => simp [int?, nat?_eq_some_iff.2 h]
    | minus h => simp [int?, nat?_eq_some_iff.2 h]

theorem word?_eq_some_iff {text : String} {v : Int} :
    word? text = some v ↔ Denotes text.toList v ∧ Word.InRange v := by
  unfold word?
  simp only [Option.bind_eq_some_iff, int?_eq_some_iff, Word.checked_eq_some_iff]
  constructor
  · rintro ⟨w, hw, hr, rfl⟩
    exact ⟨hw, hr⟩
  · rintro ⟨hv, hr⟩
    exact ⟨v, hv, hr, rfl⟩

theorem toList_toString_nat (n : Nat) : (toString n).toList = Nat.toDigits 10 n := by
  simp

theorem toList_toString_negSucc (n : Nat) :
    (toString (Int.negSucc n)).toList = '-' :: Nat.toDigits 10 (n + 1) := by
  rw [show toString (Int.negSucc n) = "-" ++ toString (n + 1) from rfl, String.toList_append,
    toList_toString_nat]
  rfl

/-- **Every integer is written as a numeral** that denotes it. -/
theorem denotes_toString (v : Int) : Denotes (toString v).toList v := by
  have hdigits (n : Nat) : IsDigits (Nat.toDigits 10 n) n := nat?_eq_some_iff.1 (nat?_toDigits n)
  cases v with
  | ofNat n =>
    have htext : (toString (Int.ofNat n)).toList = Nat.toDigits 10 n := toList_toString_nat n
    rw [htext]
    exact .unsigned (hdigits n)
  | negSucc n =>
    rw [toList_toString_negSucc]
    exact .minus (hdigits (n + 1))

/-- A character that is no digit is not in the text of a natural number. -/
theorem not_mem_toString_nat {c : Char} (hc : c.isDigit = false) (n : Nat) :
    c ∉ (toString n).toList := by
  intro hmem
  rw [toList_toString_nat] at hmem
  have hdigit := Nat.isDigit_of_mem_toDigits (by decide) (by decide) hmem
  rw [hc] at hdigit
  cases hdigit

/-- A character that is neither sign nor digit is not in the text of an integer. -/
theorem not_mem_toString {c : Char} (hc : isSignOrDigit c = false) (v : Int) :
    c ∉ (toString v).toList := by
  intro hmem
  have hnumeral := (denotes_toString v).forall_mem c hmem
  rw [hc] at hnumeral
  cases hnumeral

/-- A greater number does not have fewer digits. -/
theorem length_toString_le {m n : Nat} (h : m ≤ n) :
    (toString m).length ≤ (toString n).length := by
  have hlength (k : Nat) : (toString k).length = (Nat.toDigits 10 k).length := by
    rw [← String.length_toList, toList_toString_nat]
  have hpos : 0 < (Nat.toDigits 10 n).length := Nat.length_toDigits_pos
  rw [hlength, hlength, Nat.length_toDigits_le_iff (by decide) hpos]
  have hn : n < 10 ^ (Nat.toDigits 10 n).length :=
    (Nat.length_toDigits_le_iff (by decide) hpos).1 (Nat.le_refl _)
  exact Nat.lt_of_le_of_lt h hn

end PL0.Decimal
