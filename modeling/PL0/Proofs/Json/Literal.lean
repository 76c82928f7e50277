import Mathlib
import PL0.Json.Reader
import PL0.Proofs.Numeral

/-!
# `Json.Literal` — literals are read as they are written

A string literal is made of plain characters and escapes (`Json.IsBody`). It is read up to its
closing quote, whatever follows (`outcome_stringLiteral?`). The literal of a text has this form, and
the text is found in it again (`text?_ofText`). A number literal is read up to the first character
that cannot belong to it (`outcomeOpt_numberLiteral?`); the literals of integers have the form
required and denote them (`integer?_ofInt`).
-/

namespace PL0.Json

variable {α β : Type} {cs rest : List Char} {c : Char}

/-! ## Readers without their length proofs -/

/-- The phrase read and the characters behind it. -/
def outcome {ts : List Char} (r : Option (Parsed α ts)) : Option (α × List Char) :=
  r.map fun p => (p.value, p.rest)

/-- The phrase read, possibly an empty one, and the characters behind it. -/
def outcomeOpt {ts : List Char} (r : Option (ParsedOpt α ts)) : Option (α × List Char) :=
  r.map fun p => (p.value, p.rest)

/-! ## String literals -/

/-- What may stand between the quotes of a string literal. -/
inductive IsBody : List Char → Prop where
  | nil : IsBody []
  | code {a b c d : Char} {cs : List Char} :
    (hex4? a b c d).isSome → IsBody cs → IsBody ('\\' :: 'u' :: a :: b :: c :: d :: cs)
  | escape {e : Char} {cs : List Char} :
    (simpleEscape? e).isSome → IsBody cs → IsBody ('\\' :: e :: cs)
  | plain {c : Char} {cs : List Char} :
    c ≠ '"' → c ≠ '\\' → 32 ≤ c.toNat → IsBody cs → IsBody (c :: cs)

theorem outcome_map_consLiteral {ts us front : List Char} (h : us.length ≤ ts.length)
    (r : Option (Parsed (List Char) us)) :
    outcome (r.map (consLiteral front h)) = (outcome r).map fun p => (front ++ p.1, p.2) := by
  cases r <;> rfl

/-- **A string literal is read up to its closing quote.** -/
theorem outcome_stringLiteral? (h : IsBody cs) (rest : List Char) :
    outcome (stringLiteral? (cs ++ '"' :: rest)) = some (cs, rest) := by
  induction h with
  | nil => rfl
  | code hhex _ ih =>
    rw [List.cons_append, List.cons_append, List.cons_append, List.cons_append, List.cons_append,
      List.cons_append, stringLiteral?, if_pos hhex, outcome_map_consLiteral, ih]
    rfl
  | @escape e cs he _ ih =>
    have hu : e ≠ 'u' := by
      rintro rfl
      cases he
    rw [List.cons_append, List.cons_append, stringLiteral?, if_pos he, outcome_map_consLiteral, ih]
    · rfl
    · exact fun _ _ _ _ _ h => absurd h hu
  | @plain c cs hq hb hc _ ih =>
    have hplain : ¬ (c = '\\' ∨ c.toNat < 32) := by
      rintro (h | h)
      · exact hb h
      · omega
    rw [List.cons_append, stringLiteral?, if_neg hplain, outcome_map_consLiteral, ih]
    · rfl
    · exact fun h => hq h
    · exact fun _ _ _ _ _ h => absurd h hb
    · exact fun _ _ h => absurd h hb

/-- The two hexadecimal digits of a control character are read as its code. -/
theorem hex4?_control : ∀ n < 32,
    hex4? '0' '0' (hexDigit (n / 16)) (hexDigit (n % 16)) = some n := by
  decide

/-- A character is escaped by one of the forms of a literal, and found in it again. -/
theorem escapeChar_spec (c : Char) {cs ds : List Char} (h : IsBody cs)
    (hcs : unescape? cs = some ds) :
    IsBody (escapeChar c ++ cs) ∧ unescape? (escapeChar c ++ cs) = some (c :: ds) := by
  unfold escapeChar
  split
  case h_8 hquote hbackslash _ _ _ _ _ =>
    by_cases hc : c.toNat < 32
    · have hhex := hex4?_control c.toNat hc
      have hhigh : isHighSurrogate c.toNat = false := by
        simp only [isHighSurrogate, Bool.and_eq_false_iff, decide_eq_false_iff_not]
        omega
      have hlow : isLowSurrogate c.toNat = false := by
        simp only [isLowSurrogate, Bool.and_eq_false_iff, decide_eq_false_iff_not]
        omega
      rw [if_pos hc]
      refine ⟨.code (by simp [hhex]) h, ?_⟩
      simp only [List.cons_append, List.nil_append]
      rw [unescape?]
      simp [hhex, hhigh, hlow, hcs]
    · rw [if_neg hc]
      refine ⟨.plain (fun h => hquote h) (fun h => hbackslash h) (by omega) h, ?_⟩
      rw [List.singleton_append, unescape?, hcs]
      · rfl
      · exact fun _ _ _ _ _ h => absurd h hbackslash
      · exact fun _ _ h => absurd h hbackslash
  all_goals
    refine ⟨.escape rfl h, ?_⟩
    simp [unescape?, simpleEscape?, hcs]

theorem escape_spec (cs : List Char) :
    IsBody (cs.flatMap escapeChar) ∧ unescape? (cs.flatMap escapeChar) = some cs := by
  induction cs with
  | nil => exact ⟨.nil, rfl⟩
  | cons c cs ih => exact escapeChar_spec c ih.1 ih.2

theorem isBody_escape (text : String) : IsBody (escape text).toList := by
  unfold escape
  rw [String.toList_ofList]
  exact (escape_spec text.toList).1

theorem literalText?_escape (text : String) : literalText? (escape text) = some text := by
  unfold literalText? escape
  rw [String.toList_ofList, (escape_spec text.toList).2, Option.map_some, String.ofList_toList]

/-- **Every text is found in its string.** -/
theorem text?_ofText (text : String) : (ofText text).text? = some text := literalText?_escape text

/-! ## Number literals -/

/-- A number literal: of the form required, and with characters of numbers only. -/
def IsNumeral (cs : List Char) : Prop := isNumber cs = true ∧ ∀ c ∈ cs, isNumberChar c

/-- No character of a number stands in front. -/
def EndsNumber (rest : List Char) : Prop := ∀ c ∈ rest.head?, ¬ isNumberChar c

/-- **A number literal is read up to the first character that is none of a number.** -/
theorem outcomeOpt_numberLiteral? (h : IsNumeral (c :: cs)) (hrest : EndsNumber rest) :
    outcomeOpt (numberLiteral? c (cs ++ rest)) = some (c :: cs, rest) := by
  obtain ⟨hnumber, hchars⟩ := h
  have hcs : ∀ d ∈ cs, isNumberChar d := fun d hd => hchars d (List.mem_cons_of_mem _ hd)
  have htake : (cs ++ rest).takeWhile isNumberChar = cs := by
    rw [List.takeWhile_append_of_pos hcs]
    cases rest with
    | nil => simp
    | cons d ds => simp [hrest d rfl]
  have hdrop : (cs ++ rest).dropWhile isNumberChar = rest := by
    rw [List.dropWhile_append_of_pos hcs]
    cases rest with
    | nil => rfl
    | cons d ds => simp [hrest d rfl]
  unfold numberLiteral?
  simp [htake, hdrop, hnumber, outcomeOpt]

theorem head_toDigits {n : Nat} (h : 0 < n) : ∀ c ∈ (Nat.toDigits 10 n).head?, c ≠ '0' := by
  induction n using Nat.strongRecOn with
  | ind n ih =>
    by_cases hlt : n < 10
    · have hdigit : ∀ n < 10, 0 < n → n.digitChar ≠ '0' := by decide
      rw [Nat.toDigits_of_lt_base hlt]
      rintro c ⟨⟩
      exact hdigit n hlt h
    · have hhead := ih (n / 10) (by omega) (by omega)
      obtain ⟨d, ds, hds⟩ := List.exists_cons_of_ne_nil (@Nat.toDigits_ne_nil (n / 10) 10)
      rw [Nat.toDigits_of_base_le (by decide) (by omega), hds]
      rw [hds] at hhead
      exact hhead

/-- The digits of a number have no leading zero. -/
theorem isWhole_toDigits (n : Nat) : isWhole (Nat.toDigits 10 n) = true := by
  have hrun : isDigitRun (Nat.toDigits 10 n) = true := by
    have hall : (Nat.toDigits 10 n).all Char.isDigit = true := by
      rw [List.all_eq_true]
      exact fun c hc => Nat.isDigit_of_mem_toDigits (by decide) (by decide) hc
    simp [isDigitRun, hall, Nat.toDigits_ne_nil]
  cases n with
  | zero => rfl
  | succ n =>
    have hhead := head_toDigits (Nat.succ_pos n)
    unfold isWhole
    split
    · rfl
    · rename_i heq
      rw [heq] at hhead
      exact absurd rfl (hhead '0' rfl)
    · exact hrun

theorem isUnsignedNumber_toDigits (n : Nat) : isUnsignedNumber (Nat.toDigits 10 n) = true := by
  have hall : ∀ c ∈ Nat.toDigits 10 n, c.isDigit :=
    fun c hc => Nat.isDigit_of_mem_toDigits (by decide) (by decide) hc
  have htake : (Nat.toDigits 10 n).takeWhile Char.isDigit = Nat.toDigits 10 n :=
    List.takeWhile_eq_self_iff.2 hall
  have hdrop : (Nat.toDigits 10 n).dropWhile Char.isDigit = [] :=
    List.dropWhile_eq_nil_iff.2 hall
  unfold isUnsignedNumber
  rw [htake, hdrop, isWhole_toDigits]
  rfl

theorem isNumberChar_of_isDigit (h : c.isDigit) : isNumberChar c := by
  simp [isNumberChar, h]

/-- The literal of an integer. -/
theorem isNumeral_toString (v : Int) : IsNumeral (toString v).toList := by
  have hdigit {n : Nat} {c : Char} (hc : c ∈ Nat.toDigits 10 n) : c.isDigit :=
    Nat.isDigit_of_mem_toDigits (by decide) (by decide) hc
  cases v with
  | ofNat n =>
    have htext : (toString (Int.ofNat n)).toList = Nat.toDigits 10 n :=
      Decimal.toList_toString_nat n
    rw [htext]
    refine ⟨?_, fun c hc => isNumberChar_of_isDigit (hdigit hc)⟩
    unfold isNumber
    split
    · rename_i heq
      have hminus : '-' ∈ Nat.toDigits 10 n := by simp [heq]
      exact absurd (hdigit hminus) (by decide)
    · exact isUnsignedNumber_toDigits n
  | negSucc n =>
    rw [Decimal.toList_toString_negSucc]
    refine ⟨isUnsignedNumber_toDigits (n + 1), fun c hc => ?_⟩
    rcases List.mem_cons.1 hc with rfl | hc
    · rfl
    · exact isNumberChar_of_isDigit (hdigit hc)

/-- The literal of an integer denotes it. In particular it is no negative zero. -/
theorem integer?_ofInt (v : Int) : (ofInt v).integer? = some v := by
  have hint : Decimal.int? (toString v).toList = some v :=
    Decimal.int?_eq_some_iff.2 (Decimal.denotes_toString v)
  have hzero : toString v ≠ "-0" := by
    intro h
    rw [h] at hint
    cases hint
    exact absurd h (by decide)
  show literalInteger? (toString v) = some v
  unfold literalInteger?
  rw [if_neg hzero, hint]

theorem integer?_ofNat (n : Nat) : (ofNat n).integer? = some (n : Int) := integer?_ofInt n

end PL0.Json
