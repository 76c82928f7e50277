import Mathlib.Algebra.Group.Nat.Even
import PL0.Grammar
import PL0.Proofs.Tree.Labels

/-!
# `Tree.Quoting` — labels between quotes

A Graphviz reader takes a label from behind its opening quote to the first quote that no backslash
takes with it (`quoted?`). The printer puts a backslash in front of each quote of a label, and
leaves the label's own backslashes as they are. So the reader ends at the closing quote exactly if
backslashes in front of a quote and at the end of the label come in pairs (`snd_quoted?_escape`);
where they do not, the last of them takes away the backslash that escapes the quote, or the closing
quote itself. It finds the label exactly if there are no backslashes in it (`quoted?_escape`).

The labels of a program have no backslashes but those of its names. The main statement is
`Program.labels_quoted_iff`.
-/

namespace PL0

/-- What stands behind an opening quote: the text up to the quote that closes it, without the
    backslashes that take a character with them, and the text behind that quote. -/
def quoted? : List Char → Option (List Char × List Char)
  | [] => none
  | '"' :: cs => some ([], cs)
  | ['\\'] => none
  | '\\' :: c :: cs => (quoted? cs).map fun (front, back) => (c :: front, back)
  | c :: cs => (quoted? cs).map fun (front, back) => (c :: front, back)

/-- Behind `n` backslashes: in front of each quote and at the end stands an even number of
    backslashes. -/
def EvenRuns : Nat → List Char → Prop
  | n, [] => Even n
  | n, '"' :: cs => Even n ∧ EvenRuns 0 cs
  | n, '\\' :: cs => EvenRuns (n + 1) cs
  | _, _ :: cs => EvenRuns 0 cs

section

variable {c : Char} {cs back : List Char} {n : Nat}

/-- One more character in front. -/
theorem snd_map_cons (c : Char) (r : Option (List Char × List Char)) :
    (r.map fun (front, back) => (c :: front, back)).map Prod.snd = r.map Prod.snd :=
  Option.map_map _ _ _

/-- Any other character is read as it stands. -/
theorem quoted?_of_ne (hquote : c ≠ '"') (hback : c ≠ '\\') :
    quoted? (c :: cs) = (quoted? cs).map fun (front, back) => (c :: front, back) := by
  rw [quoted?]
  all_goals simp_all

/-- A backslash takes the next character with it, whichever that is. -/
theorem quoted?_backslash (c : Char) (cs : List Char) :
    quoted? ('\\' :: c :: cs) = (quoted? cs).map fun (front, back) => (c :: front, back) := rfl

/-- Quotes and backslashes are found only behind a backslash, which is left out. -/
theorem length_quoted? {cs front back : List Char} (h : quoted? cs = some (front, back)) :
    front.length + front.count '"' + front.count '\\' + back.length < cs.length := by
  fun_induction quoted? cs generalizing front with
  | case1 => cases h
  | case2 cs =>
    obtain ⟨rfl, rfl⟩ := Prod.mk.inj (Option.some.inj h)
    simp
  | case3 => cases h
  | case4 c cs ih =>
    obtain ⟨⟨front', back'⟩, hread, heq⟩ := Option.map_eq_some_iff.1 h
    obtain ⟨rfl, rfl⟩ := Prod.mk.inj heq
    have hlength := ih hread
    have hone : (c :: front').count '"' + (c :: front').count '\\' ≤
        front'.count '"' + front'.count '\\' + 1 := by
      by_cases hquote : c = '"'
      · rw [hquote, List.count_cons_self, List.count_cons_of_ne (by decide)]
        omega
      · rw [List.count_cons_of_ne hquote, List.count_cons]
        split <;> omega
    simp only [List.length_cons]
    omega
  | case5 c cs hquote hlone hback ih =>
    obtain ⟨⟨front', back'⟩, hread, heq⟩ := Option.map_eq_some_iff.1 h
    obtain ⟨rfl, rfl⟩ := Prod.mk.inj heq
    have hlength := ih hread
    have hne : c ≠ '\\' := by
      rintro rfl
      cases cs with
      | nil => exact hlone rfl rfl
      | cons d ds => exact hback d ds rfl rfl
    rw [List.count_cons_of_ne hquote, List.count_cons_of_ne hne]
    simp only [List.length_cons]
    omega

/-- Any other character ends a run of backslashes. -/
theorem evenRuns_of_ne (hquote : c ≠ '"') (hback : c ≠ '\\') :
    EvenRuns n (c :: cs) ↔ EvenRuns 0 cs := by
  rw [EvenRuns]
  all_goals assumption

/-- Backslashes count in pairs. -/
theorem evenRuns_add_two (n : Nat) (cs : List Char) :
    EvenRuns (n + 2) cs ↔ EvenRuns n cs := by
  have heven (n : Nat) : Even (n + 2) ↔ Even n := by simp [Nat.even_add]
  induction cs generalizing n with
  | nil => exact heven n
  | cons c cs ih =>
    by_cases hquote : c = '"'
    · subst hquote
      simp only [EvenRuns, heven]
    · by_cases hback : c = '\\'
      · subst hback
        exact ih (n + 1)
      · rw [evenRuns_of_ne hquote hback, evenRuns_of_ne hquote hback]

/-- A first part without backslashes leaves nothing to pair. -/
theorem evenRuns_append (h : '\\' ∉ cs) (ds : List Char) :
    EvenRuns 0 (cs ++ ds) ↔ EvenRuns 0 ds := by
  induction cs with
  | nil => rfl
  | cons c cs ih =>
    rw [List.mem_cons, not_or] at h
    rw [List.cons_append]
    by_cases hquote : c = '"'
    · subst hquote
      simp [EvenRuns, ih h.2]
    · rw [evenRuns_of_ne hquote (Ne.symm h.1), ih h.2]

/-- Without backslashes all runs are empty. -/
theorem evenRuns_of_notMem (h : '\\' ∉ cs) : EvenRuns 0 cs := by
  have hend : EvenRuns 0 (cs ++ []) := (evenRuns_append h []).2 Even.zero
  rwa [List.append_nil] at hend

/-! ## Reading what the printer escapes

The reader is in one of two states between two characters of the label: behind an even number of
backslashes, or behind an odd one, whose last takes the next character. A quote of the label comes
with a backslash of the printer, which is the one that takes it in the first state and the one that
is taken in the second. -/

/-- The characters of a label as they are printed. -/
def escaped (cs : List Char) : List Char :=
  cs.flatMap fun c => if c = '"' then ['\\', '"'] else [c]

/-- The printer escapes character by character. -/
theorem toList_escape (label : String) :
    (Diagram.escape label).toList = escaped label.toList := by
  have hchar (c : Char) : (if c = '"' then "\\\"" else String.singleton c).toList =
      if c = '"' then ['\\', '"'] else [c] := by
    split
    · rfl
    · exact String.toList_singleton c
  rw [Diagram.escape, String.toList_join, List.flatMap_map]
  simp only [hchar, escaped]

/-- A quote is printed behind a backslash. -/
theorem escaped_quote (cs : List Char) : escaped ('"' :: cs) = '\\' :: '"' :: escaped cs := rfl

/-- Any other character is printed as it is, a backslash too. -/
theorem escaped_of_ne (hquote : c ≠ '"') : escaped (c :: cs) = c :: escaped cs := by
  rw [escaped, List.flatMap_cons, if_neg hquote]
  rfl

/-- Reading in the state behind an even number of backslashes, and in that behind an odd one. -/
theorem snd_quoted?_escaped (cs back : List Char) :
    ((quoted? (escaped cs ++ '"' :: back)).map Prod.snd = some back ↔ EvenRuns 0 cs) ∧
      ((quoted? ('\\' :: (escaped cs ++ '"' :: back))).map Prod.snd = some back ↔
        EvenRuns 1 cs) := by
  have hread {cs : List Char} (h : (quoted? cs).map Prod.snd = some back) :
      back.length < cs.length := by
    obtain ⟨⟨front, back'⟩, hread, rfl⟩ := Option.map_eq_some_iff.1 h
    have hlength := length_quoted? hread
    show back'.length < cs.length
    omega
  induction cs with
  | nil =>
    refine ⟨iff_of_true rfl Even.zero, iff_of_false ?_ Nat.not_even_one⟩
    -- The quote that ends the label is taken.
    show (quoted? ('\\' :: '"' :: back)).map Prod.snd ≠ some back
    rw [quoted?_backslash, snd_map_cons]
    exact fun h => absurd (hread h) (Nat.lt_irrefl _)
  | cons c cs ih =>
    obtain ⟨heven, hodd⟩ := ih
    by_cases hquote : c = '"'
    · subst hquote
      have hquoted : EvenRuns 0 ('"' :: cs) ↔ EvenRuns 0 cs := by simp [EvenRuns]
      have hopen : ¬ EvenRuns 1 ('"' :: cs) := by simp [EvenRuns]
      rw [escaped_quote, List.cons_append, List.cons_append, quoted?_backslash, snd_map_cons, heven,
        quoted?_backslash, snd_map_cons]
      refine ⟨hquoted.symm, iff_of_false ?_ hopen⟩
      -- The backslash in front of the quote is taken, and the quote ends the label.
      intro h
      have hback : escaped cs ++ '"' :: back = back := Option.some.inj h
      have hlength := congrArg List.length hback
      simp at hlength
      omega
    · rw [escaped_of_ne hquote, List.cons_append, quoted?_backslash, snd_map_cons, heven]
      by_cases hback : c = '\\'
      · subst hback
        exact ⟨hodd, (evenRuns_add_two 0 cs).symm⟩
      · rw [evenRuns_of_ne hquote hback, evenRuns_of_ne hquote hback, quoted?_of_ne hquote hback,
          snd_map_cons, heven]
        exact ⟨Iff.rfl, Iff.rfl⟩

/-- **Reading ends where the label ends** exactly if its backslashes come in pairs where it
    matters. -/
theorem snd_quoted?_escape (label : String) (back : List Char) :
    (quoted? ((Diagram.escape label).toList ++ '"' :: back)).map Prod.snd = some back ↔
      EvenRuns 0 label.toList := by
  rw [toList_escape]
  exact (snd_quoted?_escaped label.toList back).1

/-- One character more is printed for each quote. -/
theorem length_escaped (cs : List Char) : (escaped cs).length = cs.length + cs.count '"' := by
  induction cs with
  | nil => rfl
  | cons c cs ih =>
    by_cases hquote : c = '"'
    · subst hquote
      simp only [escaped_quote, List.length_cons, List.count_cons_self, ih]
      omega
    · simp only [escaped_of_ne hquote, List.length_cons, List.count_cons_of_ne hquote, ih]
      omega

/-- Without backslashes of its own a label is read back. -/
theorem quoted?_escaped_of_notMem (h : '\\' ∉ cs) :
    quoted? (escaped cs ++ '"' :: back) = some (cs, back) := by
  induction cs with
  | nil => rfl
  | cons c cs ih =>
    rw [List.mem_cons, not_or] at h
    by_cases hquote : c = '"'
    · subst hquote
      rw [escaped_quote, List.cons_append, List.cons_append, quoted?_backslash, ih h.2]
      rfl
    · rw [escaped_of_ne hquote, List.cons_append, quoted?_of_ne hquote (Ne.symm h.1), ih h.2]
      rfl

/-- **A label is read as it was written** exactly if there is no backslash in it. -/
theorem quoted?_escape (label : String) (back : List Char) :
    quoted? ((Diagram.escape label).toList ++ '"' :: back) = some (label.toList, back) ↔
      '\\' ∉ label.toList := by
  rw [toList_escape]
  constructor
  · intro h
    have hlength := length_quoted? h
    rw [List.length_append, List.length_cons, length_escaped] at hlength
    have hcount : label.toList.count '\\' = 0 := by omega
    exact List.count_eq_zero.1 hcount
  · exact quoted?_escaped_of_notMem

end

/-! ## The labels of a drawing in its text -/

namespace Drawing

variable {g : Drawing} {i : Nat} {label : String}

/-- The text in front of the opening quote of label `i`. -/
def before (g : Drawing) (i : Nat) : String :=
  "digraph ast \x7b\n" ++ String.join ((g.labels.take i).mapIdx nodeLine) ++
    (toString i ++ " [label=")

/-- The text behind the closing quote of label `i`. -/
def behind (g : Drawing) (i : Nat) : String :=
  "];\n" ++ String.join ((g.labels.drop (i + 1)).mapIdx fun k => nodeLine (i + 1 + k)) ++
    String.join (g.edges.map edgeLine) ++ "\x7d\n"

theorem toList_nodeLine (i : Nat) (label : String) : (nodeLine i label).toList =
    (toString i ++ " [label=").toList ++
      '"' :: ((Diagram.escape label).toList ++ '"' :: "];\n".toList) := by
  show (toString i ++ " [label=\"" ++ Diagram.escape label ++ "\"];\n").toList =
    (toString i ++ " [label=").toList ++ _
  simp

/-- The label stands between its quotes. -/
theorem toList_text (h : g.labels[i]? = some label) : g.text.toList =
    (g.before i).toList ++ '"' ::
      ((Diagram.escape label).toList ++ '"' :: (g.behind i).toList) := by
  obtain ⟨hi, rfl⟩ := List.getElem?_eq_some_iff.1 h
  have hsplit : g.labels = g.labels.take i ++ g.labels[i] :: g.labels.drop (i + 1) := by simp
  have hlines : g.labels.mapIdx nodeLine = (g.labels.take i).mapIdx nodeLine ++
      nodeLine i g.labels[i] ::
        (g.labels.drop (i + 1)).mapIdx fun k => nodeLine (i + 1 + k) := by
    conv_lhs => rw [hsplit]
    rw [List.mapIdx_append, List.mapIdx_cons, List.length_take, Nat.min_eq_left hi.le, Nat.zero_add]
    simp only [Nat.add_comm, Nat.add_left_comm]
  rw [text, hlines]
  simp only [before, behind, String.join_append, String.join_cons, String.toList_append,
    toList_nodeLine, List.append_assoc, List.cons_append]

/-- What is read behind the opening quote of label `i`. -/
def read? (g : Drawing) (i : Nat) : Option (List Char × List Char) :=
  quoted? (g.text.toList.drop ((g.before i).length + 1))

/-- Reading label `i` ends at its closing quote. -/
def Ends (g : Drawing) (i : Nat) : Prop :=
  (g.read? i).map Prod.snd = some (g.behind i).toList

/-- Reading label `i` ends at its closing quote and finds the label. -/
def Quotes (g : Drawing) (i : Nat) (label : String) : Prop :=
  g.read? i = some (label.toList, (g.behind i).toList)

/-- What is read is the label as it is printed, and what stands behind it. -/
theorem read?_eq (h : g.labels[i]? = some label) :
    g.read? i = quoted? ((Diagram.escape label).toList ++ '"' :: (g.behind i).toList) := by
  rw [read?, toList_text h, ← List.drop_drop, ← String.length_toList, List.drop_left,
    List.drop_one, List.tail_cons]

/-- Where reading ends is a matter of the label alone. -/
theorem ends_iff (h : g.labels[i]? = some label) : g.Ends i ↔ EvenRuns 0 label.toList := by
  rw [Ends, read?_eq h, snd_quoted?_escape]

/-- So is what is read. -/
theorem quotes_iff (h : g.labels[i]? = some label) :
    g.Quotes i label ↔ '\\' ∉ label.toList := by
  rw [Quotes, read?_eq h, quoted?_escape]

end Drawing

/-! ## The labels of a program -/

open Diagram

/-- No label has a backslash that is not from a name. -/
theorem neutral_backslash : Neutral fun label => '\\' ∉ label.toList :=
  neutral_notMem (by decide) (by decide) (by decide)

/-- The label of an identifier has the backslashes of its name. -/
theorem Ident.labelHas_backslash (x : Ident) :
    (x.LabelHas fun label => '\\' ∉ label.toList) ↔ '\\' ∉ x.name.toList := by
  have hkind : '\\' ∉ "Id ".toList := by decide
  show '\\' ∉ ("Id " ++ x.name).toList ↔ '\\' ∉ x.name.toList
  rw [String.toList_append, List.mem_append, not_or]
  exact and_iff_right hkind

/-- The backslashes of a name come in the same runs in its label. -/
theorem Ident.labelHas_evenRuns (x : Ident) :
    (x.LabelHas fun label => EvenRuns 0 label.toList) ↔ EvenRuns 0 x.name.toList := by
  show EvenRuns 0 ("Id " ++ x.name).toList ↔ EvenRuns 0 x.name.toList
  rw [String.toList_append, evenRuns_append (by decide)]

namespace Program

/-- What holds of each label by itself holds of all if it holds of the names. -/
theorem forall_label_iff {P : String → Prop} {Q : Nat → String → Prop} (hP : Neutral P)
    (p : Program)
    (hQ : ∀ i label, p.diagram.drawing.labels[i]? = some label → (Q i label ↔ P label)) :
    (∀ i label, p.diagram.drawing.labels[i]? = some label → Q i label) ↔
      ∀ x ∈ p.block.idents, x.LabelHas P := by
  rw [← p.forall_diagram hP, ← forall_labels]
  constructor
  · intro h label hmem
    obtain ⟨i, hi⟩ := List.mem_iff_getElem?.1 hmem
    exact (hQ i label hi).1 (h i label hi)
  · intro h i label hi
    exact (hQ i label hi).2 (h label (List.mem_of_getElem? hi))

/-- **How the labels of a program can be read back.** Each stands escaped between its quotes in the
    text. Reading all of them ends at their closing quotes exactly if in each name of the program
    the backslashes in front of a quote and at the end come in pairs, and finds all of them exactly
    if no name has a backslash. -/
theorem labels_quoted_iff (p : Program) :
    p.dot = p.diagram.drawing.text ∧
    (∀ (i : Nat) (label : String), p.diagram.drawing.labels[i]? = some label →
      p.dot.toList = (p.diagram.drawing.before i).toList ++ '"' ::
        ((escape label).toList ++ '"' :: (p.diagram.drawing.behind i).toList)) ∧
    ((∀ (i : Nat) (label : String), p.diagram.drawing.labels[i]? = some label →
        p.diagram.drawing.Ends i) ↔ ∀ x ∈ p.block.idents, EvenRuns 0 x.name.toList) ∧
    ((∀ (i : Nat) (label : String), p.diagram.drawing.labels[i]? = some label →
        p.diagram.drawing.Quotes i label) ↔ ∀ x ∈ p.block.idents, '\\' ∉ x.name.toList) := by
  have htext : p.dot = p.diagram.drawing.text := by rw [p.dot_eq_render, render_eq_text]
  have heven : Neutral fun label => EvenRuns 0 label.toList :=
    neutral_backslash.mono fun _ => evenRuns_of_notMem
  refine ⟨htext, ?_, ?_, ?_⟩
  · intro i label h
    rw [htext, Drawing.toList_text h]
  · rw [p.forall_label_iff heven fun _ _ h => Drawing.ends_iff h]
    simp only [Ident.labelHas_evenRuns]
  · rw [p.forall_label_iff neutral_backslash fun _ _ h => Drawing.quotes_iff h]
    simp only [Ident.labelHas_backslash]

/-- The tokens of a call of `p\`, a name that no text of a program has. -/
def slashedTokens : List Token :=
  [⟨.keyword .callKw, 0, "call"⟩, ⟨.identifier, 5, "p\\"⟩, ⟨.mark .dot, 8, "."⟩]

/-- A call of `p\`. -/
def slashed : Program := ⟨.mk [] [] [] (.call ⟨"p\\", 5⟩)⟩

/-- The backslash at the end of a name takes the closing quote of its label. -/
theorem slashed_not_quoted :
    ofTokens slashedTokens = .ok slashed ∧
      slashed.diagram.drawing.labels[4]? = some "Id p\\" ∧
      ¬ slashed.diagram.drawing.Ends 4 := by
  have hlabel : slashed.diagram.drawing.labels[4]? = some "Id p\\" := rfl
  refine ⟨by cbv, hlabel, ?_⟩
  rw [Drawing.ends_iff hlabel]
  exact Nat.not_even_one

end Program

end PL0
