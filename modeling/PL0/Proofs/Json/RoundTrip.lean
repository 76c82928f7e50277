import PL0.Proofs.Json.Literal

/-!
# `Json.RoundTrip` — documents are read as they are written

A document whose literals are literals (`Json.Valid`) is written over several lines and found again
by the reader (`read?_pretty`). The proof is by induction on the document. It speaks of a document
in the middle of a text: blanks may stand in front of it, and behind it anything that does not start
with a character of a number, since a number has no other end.

The readers carry proofs that they consume something. `outcome` forgets them, so that the reader of
values, of items and of members get plain equations; from these follows what each of them finds in a
given text, and the induction puts this together.
-/

namespace PL0.Json

variable {α β : Type} {cs mid rest : List Char} {c : Char}

mutual

/-- The literals of the document are literals. -/
def Valid : Json → Prop
  | null => True
  | bool _ => True
  | number literal => IsNumeral literal.toList
  | string literal => IsBody literal.toList
  | array items => ValidItems items
  | object members => ValidMembers members

/-- The literals of all items are literals. -/
def ValidItems : List Json → Prop
  | [] => True
  | j :: js => j.Valid ∧ ValidItems js

/-- Keys are literals too. -/
def ValidMembers : List Member → Prop
  | [] => True
  | .mk key value :: ms => IsBody key.toList ∧ value.Valid ∧ ValidMembers ms

end

/-- The documents that stand for texts and integers are valid by the way they are made. -/
theorem valid_ofText (text : String) : (ofText text).Valid := isBody_escape text

theorem valid_ofInt (v : Int) : (ofInt v).Valid := isNumeral_toString v

theorem valid_ofNat (n : Nat) : (ofNat n).Valid := isNumeral_toString n

/-! ## One step of the reader

`next?` answers the first character that is no blank. All that the reader decides, it decides by
this character. -/

/-- An outcome comes from a reading, which consumes something. -/
theorem eq_some_of_outcome {r : Option (Parsed α cs)} {a : α} (h : outcome r = some (a, rest)) :
    ∃ hlt, r = some ⟨a, rest, hlt⟩ := by
  obtain ⟨p, rfl, hp⟩ := Option.map_eq_some_iff.1 h
  cases hp
  exact ⟨p.shorter, rfl⟩

/-- Where there are no blanks, the first character is answered. -/
theorem next?_cons (hc : ¬ isBlank c) (cs : List Char) : outcome (next? (c :: cs)) = some (c, cs) := by
  rw [next?, if_neg hc]
  rfl

/-- Blanks are skipped. -/
theorem outcome_next? {bs : List Char} (hbs : ∀ b ∈ bs, isBlank b) (hc : ¬ isBlank c) :
    outcome (next? (bs ++ c :: cs)) = some (c, cs) := by
  induction bs with
  | nil => exact next?_cons hc cs
  | cons b bs ih =>
    have hb := hbs b (List.mem_cons_self ..)
    obtain ⟨hlt, hnext⟩ := eq_some_of_outcome (ih fun d hd => hbs d (List.mem_cons_of_mem _ hd))
    rw [List.cons_append, next?, if_pos hb, hnext]
    rfl

/-! ### The readers without their length proofs -/

/-- Readings one behind the other. -/
theorem outcome_bind {us : List Char} {r : Option (Parsed α cs)}
    {f : Parsed α cs → Option (Parsed β us)} {g : α × List Char → Option (β × List Char)}
    (h : ∀ a rest hlt, outcome (f ⟨a, rest, hlt⟩) = g (a, rest)) :
    outcome (r >>= f) = outcome r >>= g := by
  cases r with
  | none => rfl
  | some p => exact h p.value p.rest p.shorter

/-- The first one may read nothing. -/
theorem outcomeOpt_bind {us : List Char} {r : Option (ParsedOpt α cs)}
    {f : ParsedOpt α cs → Option (Parsed β us)} {g : α × List Char → Option (β × List Char)}
    (h : ∀ a rest hle, outcome (f ⟨a, rest, hle⟩) = g (a, rest)) :
    outcome (r >>= f) = outcomeOpt r >>= g := by
  cases r with
  | none => rfl
  | some p => exact h p.value p.rest p.noLonger

/-- A value is told by its first character. -/
theorem outcome_value? (cs : List Char) : outcome (value? cs) = (do
    let (c, rest) ← outcome (next? cs)
    match c with
    | '"' =>
      let (literal, rest') ← outcome (stringLiteral? rest)
      return (string (String.ofList literal), rest')
    | '[' =>
      let (c', rest') ← outcome (next? rest)
      if c' = ']' then return (array [], rest')
      else
        let (items, rest'') ← outcome (items? rest)
        return (array items, rest'')
    | '\x7b' =>
      let (c', rest') ← outcome (next? rest)
      if c' = '\x7d' then return (object [], rest')
      else
        let (members, rest'') ← outcome (members? rest)
        return (object members, rest'')
    | 'n' =>
      let (j, rest') ← outcomeOpt (word? ['u', 'l', 'l'] null rest)
      return (j, rest')
    | 't' =>
      let (j, rest') ← outcomeOpt (word? ['r', 'u', 'e'] (bool true) rest)
      return (j, rest')
    | 'f' =>
      let (j, rest') ← outcomeOpt (word? ['a', 'l', 's', 'e'] (bool false) rest)
      return (j, rest')
    | c =>
      let (literal, rest') ← outcomeOpt (numberLiteral? c rest)
      return (number (String.ofList literal), rest')) := by
  rw [value?]
  refine outcome_bind fun c rest _ => ?_
  dsimp only
  split
  · exact outcome_bind fun _ _ _ => rfl
  · refine outcome_bind fun c' rest' _ => ?_
    by_cases hc : c' = ']'
    · simp only [hc, if_true]
      rfl
    · simp only [hc, if_false]
      exact outcome_bind fun _ _ _ => rfl
  · refine outcome_bind fun c' rest' _ => ?_
    by_cases hc : c' = '\x7d'
    · simp only [hc, if_true]
      rfl
    · simp only [hc, if_false]
      exact outcome_bind fun _ _ _ => rfl
  · exact outcomeOpt_bind fun _ _ _ => rfl
  · exact outcomeOpt_bind fun _ _ _ => rfl
  · exact outcomeOpt_bind fun _ _ _ => rfl
  · -- Only the hypotheses on `c` say that this is the last branch.
    simp only [outcomeOpt]
    exact outcomeOpt_bind fun _ _ _ => rfl

/-- An item, then a comma and more items or the closing bracket. A comma in front of the bracket is
    none. -/
theorem outcome_items? (cs : List Char) : outcome (items? cs) = (do
    let (j, rest) ← outcome (value? cs)
    let (c, rest') ← outcome (next? rest)
    match c with
    | ',' =>
      let (js, rest'') ← outcome (items? rest')
      return (j :: js, rest'')
    | ']' => return ([j], rest')
    | _ => none) := by
  rw [items?]
  refine outcome_bind fun j rest _ => outcome_bind fun c rest' _ => ?_
  dsimp only
  split
  · exact outcome_bind fun _ _ _ => rfl
  · rfl
  · simp [outcome]

/-- A key in quotes, a colon and a value, then as for items. -/
theorem outcome_members? (cs : List Char) : outcome (members? cs) = (do
    let (quote, rest) ← outcome (next? cs)
    unless quote = '"' do none
    let (key, rest') ← outcome (stringLiteral? rest)
    let (colon, rest'') ← outcome (next? rest')
    unless colon = ':' do none
    let (j, rest₃) ← outcome (value? rest'')
    let (c, rest₄) ← outcome (next? rest₃)
    match c with
    | ',' =>
      let (ms, rest₅) ← outcome (members? rest₄)
      return (.mk (String.ofList key) j :: ms, rest₅)
    | '\x7d' => return ([.mk (String.ofList key) j], rest₄)
    | _ => none) := by
  rw [members?]
  refine outcome_bind fun quote rest _ => ?_
  -- Each `unless` is a branch of its own: without the quote or the colon there is no member.
  by_cases hquote : quote = '"'
  · simp only [hquote, if_true]
    refine outcome_bind fun key rest' _ => outcome_bind fun colon rest'' _ => ?_
    by_cases hcolon : colon = ':'
    · simp only [hcolon, if_true]
      refine outcome_bind fun j rest₃ _ => outcome_bind fun c rest₄ _ => ?_
      dsimp only
      split
      · exact outcome_bind fun _ _ _ => rfl
      · rfl
      · simp [outcome]
    · simp only [hcolon, if_false]
      rfl
  · simp only [hquote, if_false]
    rfl

/-! ### What each of them finds -/

theorem value?_null (hnext : outcome (next? cs) = some ('n', 'u' :: 'l' :: 'l' :: rest)) :
    outcome (value? cs) = some (null, rest) := by
  rw [outcome_value?, hnext]
  rfl

theorem value?_true (hnext : outcome (next? cs) = some ('t', 'r' :: 'u' :: 'e' :: rest)) :
    outcome (value? cs) = some (bool true, rest) := by
  rw [outcome_value?, hnext]
  rfl

theorem value?_false (hnext : outcome (next? cs) = some ('f', 'a' :: 'l' :: 's' :: 'e' :: rest)) :
    outcome (value? cs) = some (bool false, rest) := by
  rw [outcome_value?, hnext]
  rfl

theorem value?_string {literal : List Char} (hnext : outcome (next? cs) = some ('"', mid))
    (h : outcome (stringLiteral? mid) = some (literal, rest)) :
    outcome (value? cs) = some (string (String.ofList literal), rest) := by
  rw [outcome_value?, hnext]
  simp [h]

theorem value?_array_nil (hnext : outcome (next? cs) = some ('[', mid))
    (h : outcome (next? mid) = some (']', rest)) :
    outcome (value? cs) = some (array [], rest) := by
  rw [outcome_value?, hnext]
  simp [h]

/-- Items are looked for only if the bracket is not closed at once. -/
theorem value?_array {items : List Json} {more : List Char}
    (hnext : outcome (next? cs) = some ('[', mid)) (hfirst : outcome (next? mid) = some (c, more))
    (hc : c ≠ ']') (h : outcome (items? mid) = some (items, rest)) :
    outcome (value? cs) = some (array items, rest) := by
  rw [outcome_value?, hnext]
  simp [h, hfirst, hc]

theorem value?_object_nil (hnext : outcome (next? cs) = some ('\x7b', mid))
    (h : outcome (next? mid) = some ('\x7d', rest)) :
    outcome (value? cs) = some (object [], rest) := by
  rw [outcome_value?, hnext]
  simp [h]

theorem value?_object {members : List Member} {more : List Char}
    (hnext : outcome (next? cs) = some ('\x7b', mid))
    (hfirst : outcome (next? mid) = some (c, more)) (hc : c ≠ '\x7d')
    (h : outcome (members? mid) = some (members, rest)) :
    outcome (value? cs) = some (object members, rest) := by
  rw [outcome_value?, hnext]
  simp [h, hfirst, hc]

/-- No other value begins with a character of a number. -/
theorem value?_number {literal : List Char} (hc : isNumberChar c)
    (hnext : outcome (next? cs) = some (c, mid))
    (h : outcomeOpt (numberLiteral? c mid) = some (literal, rest)) :
    outcome (value? cs) = some (number (String.ofList literal), rest) := by
  rw [outcome_value?, hnext]
  dsimp only [Option.bind_eq_bind, Option.bind_some]
  split
  -- All branches but the last ask for a character that no number has.
  all_goals first | exact absurd hc (by decide) | skip
  simp [h]

/-- The last item, with the closing bracket behind it. -/
theorem items?_last {j : Json} (hvalue : outcome (value? cs) = some (j, mid))
    (hnext : outcome (next? mid) = some (']', rest)) :
    outcome (items? cs) = some ([j], rest) := by
  rw [outcome_items?, hvalue]
  simp [hnext]

/-- An item with a comma and more items behind it. -/
theorem items?_more {j : Json} {js : List Json} {more : List Char}
    (hvalue : outcome (value? cs) = some (j, mid))
    (hnext : outcome (next? mid) = some (',', more))
    (h : outcome (items? more) = some (js, rest)) :
    outcome (items? cs) = some (j :: js, rest) := by
  rw [outcome_items?, hvalue]
  simp [hnext, h]

section
variable {mid₁ mid₂ mid₃ more key : List Char} {j : Json}

/-- The last member, with the closing brace behind it. -/
theorem members?_last (hquote : outcome (next? cs) = some ('"', mid₁))
    (hkey : outcome (stringLiteral? mid₁) = some (key, mid₂))
    (hcolon : outcome (next? mid₂) = some (':', mid₃))
    (hvalue : outcome (value? mid₃) = some (j, mid))
    (hnext : outcome (next? mid) = some ('\x7d', rest)) :
    outcome (members? cs) = some ([.mk (String.ofList key) j], rest) := by
  rw [outcome_members?, hquote]
  simp [hkey, hcolon, hvalue, hnext]

/-- A member with a comma and more members behind it. -/
theorem members?_more {ms : List Member} (hquote : outcome (next? cs) = some ('"', mid₁))
    (hkey : outcome (stringLiteral? mid₁) = some (key, mid₂))
    (hcolon : outcome (next? mid₂) = some (':', mid₃))
    (hvalue : outcome (value? mid₃) = some (j, mid))
    (hnext : outcome (next? mid) = some (',', more))
    (h : outcome (members? more) = some (ms, rest)) :
    outcome (members? cs) = some (.mk (String.ofList key) j :: ms, rest) := by
  rw [outcome_members?, hquote]
  simp [hkey, hcolon, hvalue, hnext, h]

end

/-! ## What is written

The writer works with texts and the reader with characters. What it writes is said here in
characters, list by list, in the form that the reader takes it apart again. -/

/-- What stands behind an opening bracket: each part on its own lines, then the closing bracket. -/
def linesBehind (depth : Nat) (closing : Char) : List String → List Char
  | [] => '\n' :: ((indent depth).toList ++ [closing])
  | [p] => '\n' :: ((indent (depth + 1)).toList ++ (p.toList ++ linesBehind depth closing []))
  | p :: p' :: ps => '\n' :: ((indent (depth + 1)).toList ++
      (p.toList ++ ',' :: linesBehind depth closing (p' :: ps)))

/-- What is put in brackets is the opening one and the lines behind it. -/
theorem toList_bracketed (opening closing : Char) (depth : Nat) {parts : List String}
    (h : parts ≠ []) :
    (bracketed (String.singleton opening) (String.singleton closing) depth parts).toList =
      opening :: linesBehind depth closing parts := by
  have hlines : '\n' :: ((String.intercalate ",\n"
      (parts.map fun p => indent (depth + 1) ++ p)).toList ++
        '\n' :: ((indent depth).toList ++ [closing])) = linesBehind depth closing parts := by
    -- Line break and indentation of a part, and the comma behind it, are moved over to the part
    -- itself.
    induction parts with
    | nil => exact absurd rfl h
    | cons p ps ih =>
      cases ps with
      | nil => simp [linesBehind]
      | cons p' ps =>
        have ih := ih (by simp)
        rw [List.map_cons] at ih
        rw [linesBehind, ← ih]
        simp [List.append_assoc]
  rw [← hlines]
  have hempty : parts.isEmpty = false := by simpa using h
  simp [bracketed, hempty, String.toList_append]

theorem toList_write_null (depth : Nat) : (write depth null).toList = ['n', 'u', 'l', 'l'] := by
  simp [write]

theorem toList_write_true (depth : Nat) :
    (write depth (bool true)).toList = ['t', 'r', 'u', 'e'] := by
  simp [write]

theorem toList_write_false (depth : Nat) :
    (write depth (bool false)).toList = ['f', 'a', 'l', 's', 'e'] := by
  simp [write]

theorem toList_write_number (depth : Nat) (literal : String) :
    (write depth (number literal)).toList = literal.toList := by
  simp [write]

theorem toList_write_string (depth : Nat) (literal : String) :
    (write depth (string literal)).toList = '"' :: (literal.toList ++ ['"']) := by
  simp [write, quoted]

theorem toList_write_array_nil (depth : Nat) : (write depth (array [])).toList = ['[', ']'] := by
  simp [write, writeItems, bracketed]

/-- An empty array is written on one line, any other over several. -/
theorem toList_write_array (depth : Nat) (j : Json) (js : List Json) :
    (write depth (array (j :: js))).toList =
      '[' :: linesBehind depth ']' (writeItems (depth + 1) (j :: js)) := by
  rw [write]
  exact toList_bracketed '[' ']' depth (by simp [writeItems])

theorem toList_write_object_nil (depth : Nat) :
    (write depth (object [])).toList = ['\x7b', '\x7d'] := by
  simp [write, writeMembers, bracketed]

/-- So is an object. -/
theorem toList_write_object (depth : Nat) (m : Member) (ms : List Member) :
    (write depth (object (m :: ms))).toList =
      '\x7b' :: linesBehind depth '\x7d' (writeMembers (depth + 1) (m :: ms)) := by
  obtain ⟨key, value⟩ := m
  rw [write]
  exact toList_bracketed '\x7b' '\x7d' depth (by simp [writeMembers])

/-- The reader skips what parts are indented with. -/
theorem isBlank_indent (depth : Nat) : ∀ b ∈ (indent depth).toList, isBlank b := by
  intro b hb
  unfold indent at hb
  rw [String.toList_ofList] at hb
  rw [List.eq_of_mem_replicate hb]
  rfl

/-- A line break and the blanks behind it. -/
theorem isBlank_newline (depth : Nat) : ∀ b ∈ '\n' :: (indent depth).toList, isBlank b := by
  intro b hb
  rcases List.mem_cons.1 hb with rfl | hb
  · rfl
  · exact isBlank_indent depth b hb

/-- A document starts with a character that is neither a blank nor a closing bracket. -/
theorem exists_first {j : Json} (hj : j.Valid) (depth : Nat) :
    ∃ c cs, (j.write depth).toList = c :: cs ∧ ¬ isBlank c ∧ c ≠ ']' := by
  cases j with
  | null => exact ⟨_, _, toList_write_null depth, by decide, by decide⟩
  | bool b =>
    cases b with
    | false => exact ⟨_, _, toList_write_false depth, by decide, by decide⟩
    | true => exact ⟨_, _, toList_write_true depth, by decide, by decide⟩
  | number literal =>
    obtain ⟨hnumber, hchars⟩ := hj
    cases hcs : literal.toList with
    | nil =>
      rw [hcs] at hnumber
      exact absurd hnumber (by decide)
    | cons c cs =>
      have hc := hchars c (by simp [hcs])
      refine ⟨c, cs, (toList_write_number depth literal).trans hcs, fun hblank => ?_, ?_⟩
      · simp only [isBlank, Bool.or_eq_true, beq_iff_eq] at hblank
        rcases hblank with ((rfl | rfl) | rfl) | rfl <;> exact absurd hc (by decide)
      · rintro rfl
        exact absurd hc (by decide)
  | string literal => exact ⟨_, _, toList_write_string depth literal, by decide, by decide⟩
  | array items =>
    cases items with
    | nil => exact ⟨_, _, toList_write_array_nil depth, by decide, by decide⟩
    | cons j js => exact ⟨_, _, toList_write_array depth j js, by decide, by decide⟩
  | object members =>
    cases members with
    | nil => exact ⟨_, _, toList_write_object_nil depth, by decide, by decide⟩
    | cons m ms => exact ⟨_, _, toList_write_object depth m ms, by decide, by decide⟩

/-- Behind a bracket, the first part comes first. -/
theorem next?_linesBehind {p : String} {c : Char} {cs : List Char} (h : p.toList = c :: cs)
    (hc : ¬ isBlank c) (depth : Nat) (closing : Char) (ps : List String) (rest : List Char) :
    ∃ more, outcome (next? (linesBehind depth closing (p :: ps) ++ rest)) = some (c, more) := by
  obtain ⟨more, hmore⟩ : ∃ more, linesBehind depth closing (p :: ps) ++ rest =
      ('\n' :: (indent (depth + 1)).toList) ++ c :: more := by
    cases ps with
    | nil => exact ⟨_, by simp [linesBehind, h]; rfl⟩
    | cons p' ps => exact ⟨_, by simp [linesBehind, h]; rfl⟩
  rw [hmore]
  exact ⟨more, outcome_next? (isBlank_newline (depth + 1)) hc⟩

/-- Behind the last part, the closing bracket comes. -/
theorem next?_linesBehind_nil {closing : Char} (hc : ¬ isBlank closing) (depth : Nat)
    (rest : List Char) :
    outcome (next? (linesBehind depth closing [] ++ rest)) = some (closing, rest) := by
  have h : outcome (next? (('\n' :: (indent depth).toList) ++ closing :: rest)) =
      some (closing, rest) := outcome_next? (isBlank_newline depth) hc
  have htext : linesBehind depth closing [] ++ rest =
      ('\n' :: (indent depth).toList) ++ closing :: rest := by
    simp [linesBehind]
  rw [htext]
  exact h

/-- A member starts with the quote of its key. -/
theorem exists_quote (m : Member) (depth : Nat) (ms : List Member) (rest : List Char) :
    ∃ more, outcome (next? (linesBehind depth '\x7d' (writeMembers (depth + 1) (m :: ms)) ++ rest)) =
      some ('"', more) := by
  obtain ⟨key, value⟩ := m
  have hfirst : (quoted key ++ ": " ++ value.write (depth + 1)).toList =
      '"' :: (key.toList ++ '"' :: ':' :: ' ' :: (value.write (depth + 1)).toList) := by
    simp [quoted]
  exact next?_linesBehind hfirst (by decide) depth '\x7d' (writeMembers (depth + 1) ms) rest

/-- Behind the last part there is a line break, which ends a number. -/
theorem endsNumber_linesBehind_nil (depth : Nat) (closing : Char) (rest : List Char) :
    EndsNumber (linesBehind depth closing [] ++ rest) := by
  rintro c ⟨⟩
  decide

theorem endsNumber_comma (cs : List Char) : EndsNumber (',' :: cs) := by
  rintro c ⟨⟩
  decide

/-! ## The round trip

The statement is about a document, about the items of an array behind its bracket and about the
members of an object behind its brace. The items are read from the blanks in front of them on, so
the line break and the indentation go with the item behind, not with the one in front. -/

mutual

/-- **A document is read where it is written.** -/
theorem value?_write (j : Json) (hj : j.Valid) (depth : Nat) {bs rest : List Char}
    (hbs : ∀ b ∈ bs, isBlank b) (hrest : EndsNumber rest) :
    outcome (value? (bs ++ ((j.write depth).toList ++ rest))) = some (j, rest) := by
  cases j with
  | null =>
    rw [toList_write_null]
    exact value?_null (outcome_next? hbs (by decide))
  | bool b =>
    cases b with
    | false =>
      rw [toList_write_false]
      exact value?_false (outcome_next? hbs (by decide))
    | true =>
      rw [toList_write_true]
      exact value?_true (outcome_next? hbs (by decide))
  | number literal =>
    obtain ⟨c, cs, htext, hblank, -⟩ := exists_first hj depth
    have hliteral : literal.toList = c :: cs := by rw [← htext, toList_write_number]
    have hnumeral : IsNumeral (c :: cs) := hliteral ▸ hj
    rw [htext, List.cons_append]
    have h := value?_number (hnumeral.2 c (List.mem_cons_self ..)) (outcome_next? hbs hblank)
      (outcomeOpt_numberLiteral? hnumeral hrest)
    rwa [← hliteral, String.ofList_toList] at h
  | string literal =>
    rw [toList_write_string, List.cons_append, List.append_assoc]
    have h := value?_string (outcome_next? hbs (by decide)) (outcome_stringLiteral? hj rest)
    rwa [String.ofList_toList] at h
  | array items =>
    cases items with
    | nil =>
      rw [toList_write_array_nil]
      exact value?_array_nil (outcome_next? hbs (by decide)) (next?_cons (by decide) rest)
    -- The first item does not begin like a closing bracket, so the reader does not take the array
    -- for an empty one.
    | cons j js =>
      obtain ⟨c, cs, hfirst, hblank, hc⟩ := exists_first hj.1 (depth + 1)
      obtain ⟨more, hmore⟩ :=
        next?_linesBehind hfirst hblank depth ']' (writeItems (depth + 1) js) rest
      rw [toList_write_array, List.cons_append]
      exact value?_array (outcome_next? hbs (by decide)) hmore hc
        (items?_write (j :: js) (List.cons_ne_nil j js) hj depth rest)
  | object members =>
    cases members with
    | nil =>
      rw [toList_write_object_nil]
      exact value?_object_nil (outcome_next? hbs (by decide)) (next?_cons (by decide) rest)
    | cons m ms =>
      obtain ⟨more, hmore⟩ := exists_quote m depth ms rest
      rw [toList_write_object, List.cons_append]
      exact value?_object (outcome_next? hbs (by decide)) hmore (by decide)
        (members?_write (m :: ms) (List.cons_ne_nil m ms) hj depth rest)

/-- The items of an array are read behind its opening bracket, with all that stands between them. -/
theorem items?_write (js : List Json) (hne : js ≠ []) (hjs : ValidItems js) (depth : Nat)
    (rest : List Char) :
    outcome (items? (linesBehind depth ']' (writeItems (depth + 1) js) ++ rest)) =
      some (js, rest) := by
  cases js with
  | nil => exact absurd rfl hne
  | cons j js =>
    cases js with
    | nil =>
      have htext : linesBehind depth ']' (writeItems (depth + 1) [j]) ++ rest =
          ('\n' :: (indent (depth + 1)).toList) ++ ((j.write (depth + 1)).toList ++
            (linesBehind depth ']' [] ++ rest)) := by
        simp [writeItems, linesBehind]
      rw [htext]
      exact items?_last (value?_write j hjs.1 (depth + 1) (isBlank_newline (depth + 1))
        (endsNumber_linesBehind_nil depth ']' rest)) (next?_linesBehind_nil (by decide) depth rest)
    | cons j' js =>
      have htext : linesBehind depth ']' (writeItems (depth + 1) (j :: j' :: js)) ++ rest =
          ('\n' :: (indent (depth + 1)).toList) ++ ((j.write (depth + 1)).toList ++
            ',' :: (linesBehind depth ']' (writeItems (depth + 1) (j' :: js)) ++ rest)) := by
        simp [writeItems, linesBehind]
      -- In front of the comma the item ends, be it a number or not.
      rw [htext]
      exact items?_more (value?_write j hjs.1 (depth + 1) (isBlank_newline (depth + 1))
        (endsNumber_comma _)) (next?_cons (by decide) _)
        (items?_write (j' :: js) (List.cons_ne_nil j' js) hjs.2 depth rest)

/-- So are the members of an object. Between the colon and the value there is one blank. -/
theorem members?_write (ms : List Member) (hne : ms ≠ []) (hms : ValidMembers ms) (depth : Nat)
    (rest : List Char) :
    outcome (members? (linesBehind depth '\x7d' (writeMembers (depth + 1) ms) ++ rest)) =
      some (ms, rest) := by
  cases ms with
  | nil => exact absurd rfl hne
  | cons m ms =>
    obtain ⟨key, value⟩ := m
    obtain ⟨hkey, hvalue, hms⟩ := hms
    have hspace : ∀ b ∈ [' '], isBlank b := by simp [isBlank]
    cases ms with
    | nil =>
      have htext : linesBehind depth '\x7d' (writeMembers (depth + 1) [.mk key value]) ++ rest =
          ('\n' :: (indent (depth + 1)).toList) ++ '"' :: (key.toList ++ '"' :: ':' :: ([' '] ++
            ((value.write (depth + 1)).toList ++ (linesBehind depth '\x7d' [] ++ rest)))) := by
        simp [writeMembers, linesBehind, quoted]
      rw [htext]
      have h := members?_last (outcome_next? (isBlank_newline (depth + 1)) (by decide))
        (outcome_stringLiteral? hkey _) (next?_cons (by decide) _)
        (value?_write value hvalue (depth + 1) hspace
          (endsNumber_linesBehind_nil depth '\x7d' rest))
        (next?_linesBehind_nil (by decide) depth rest)
      rwa [String.ofList_toList] at h
    | cons m' ms =>
      have htext : linesBehind depth '\x7d'
          (writeMembers (depth + 1) (.mk key value :: m' :: ms)) ++ rest =
          ('\n' :: (indent (depth + 1)).toList) ++ '"' :: (key.toList ++ '"' :: ':' :: ([' '] ++
            ((value.write (depth + 1)).toList ++
              ',' :: (linesBehind depth '\x7d' (writeMembers (depth + 1) (m' :: ms)) ++ rest)))) := by
        obtain ⟨key', value'⟩ := m'
        simp [writeMembers, linesBehind, quoted]
      rw [htext]
      have h := members?_more (outcome_next? (isBlank_newline (depth + 1)) (by decide))
        (outcome_stringLiteral? hkey _) (next?_cons (by decide) _)
        (value?_write value hvalue (depth + 1) hspace (endsNumber_comma _))
        (next?_cons (by decide) _)
        (members?_write (m' :: ms) (List.cons_ne_nil m' ms) hms depth rest)
      rwa [String.ofList_toList] at h

end

/-- **Every document with literals that are literals is read back.** -/
theorem read?_pretty {j : Json} (hj : j.Valid) : read? j.pretty = some j := by
  have hends : EndsNumber [] := by simp [EndsNumber]
  have h : outcome (value? j.pretty.toList) = some (j, []) := by
    have hvalue := @value?_write j hj 0 [] [] (by simp) hends
    rwa [List.nil_append, List.append_nil] at hvalue
  obtain ⟨_, hvalue⟩ := eq_some_of_outcome h
  unfold read?
  rw [hvalue]
  rfl

end PL0.Json
