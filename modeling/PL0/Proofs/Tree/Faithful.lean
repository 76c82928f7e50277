import Mathlib
import PL0.Proofs.Lines
import PL0.Proofs.Tree.Quoting
import PL0.Proofs.Tree.Shapes

/-!
# `Tree.Faithful` — the Graphviz text shows the program

Three steps lead from a text back to its program. The text consists of lines, and the lines of nodes
are told from those of edges by their brackets, so that it determines the drawing
(`Drawing.text_inj`). A drawing shows one diagram only (`Diagram.shownAt_unique`). A diagram shows
the tree but for its indices and its empty statements (`Program.diagram_eq_iff`).

The first step needs labels without line breaks. A name that is a word has none, and the names of a
program that is read from a text are words. Main statement: `Program.dot_faithful`.
-/

namespace PL0

/-! ## Texts of drawings

Escaping is injective even though it does not reach backslashes: a quote that is printed has a
backslash in front of it, and one of the label's own backslashes has no quote behind it that is not
escaped itself. -/

/-- A quote is printed behind a backslash only. -/
theorem escaped_ne_quote (cs back : List Char) : escaped cs ≠ '"' :: back := by
  cases cs with
  | nil => exact (List.cons_ne_nil _ _).symm
  | cons c cs =>
    by_cases hquote : c = '"'
    · subst hquote
      simp [escaped_quote]
    · rw [escaped_of_ne hquote]
      exact fun h => hquote (List.head_eq_of_cons_eq h)

/-- Nothing is printed for nothing only. -/
theorem escaped_eq_nil_iff {cs : List Char} : escaped cs = [] ↔ cs = [] := by
  cases cs with
  | nil => exact iff_of_true rfl rfl
  | cons c cs =>
    by_cases hquote : c = '"'
    · subst hquote
      simp [escaped_quote]
    · simp [escaped_of_ne hquote]

/-- What is printed shows what is escaped. -/
theorem escaped_inj {cs ds : List Char} (h : escaped cs = escaped ds) : cs = ds := by
  induction cs generalizing ds with
  | nil => exact (escaped_eq_nil_iff.1 h.symm).symm
  | cons c cs ih =>
    cases ds with
    | nil => exact escaped_eq_nil_iff.1 h
    | cons d ds =>
      by_cases hc : c = '"'
      · subst hc
        by_cases hd : d = '"'
        · subst hd
          rw [escaped_quote, escaped_quote, List.cons_inj_right, List.cons_inj_right] at h
          rw [ih h]
        · rw [escaped_quote, escaped_of_ne hd] at h
          exact absurd (List.tail_eq_of_cons_eq h).symm (escaped_ne_quote _ _)
      · by_cases hd : d = '"'
        · subst hd
          rw [escaped_quote, escaped_of_ne hc] at h
          exact absurd (List.tail_eq_of_cons_eq h) (escaped_ne_quote _ _)
        · rw [escaped_of_ne hc, escaped_of_ne hd] at h
          obtain ⟨rfl, htail⟩ := List.cons.inj h
          rw [ih htail]

/-- Escaping breaks no line. -/
theorem newline_not_mem_escaped {cs : List Char} (h : '\n' ∉ cs) : '\n' ∉ escaped cs := by
  intro hmem
  obtain ⟨c, hc, hmem⟩ := List.mem_flatMap.1 hmem
  by_cases hquote : c = '"'
  · rw [if_pos hquote] at hmem
    exact absurd hmem (by decide)
  · rw [if_neg hquote] at hmem
    exact h (List.mem_singleton.1 hmem ▸ hc)

namespace Drawing

variable {g g' : Drawing} {i : Nat} {label label' : String} {e e' : Nat × Nat}

/-- The line of a node has its label. -/
theorem nodeLine_inj : nodeLine i label = nodeLine i label' ↔ label = label' := by
  constructor
  · intro h
    have hlines := congrArg String.toList h
    rw [toList_nodeLine, toList_nodeLine, List.append_cancel_left_eq, List.cons_inj_right,
      List.append_cancel_right_eq, toList_escape, toList_escape] at hlines
    exact String.toList_inj.1 (escaped_inj hlines)
  · rintro rfl
    rfl

/-- The characters of the line of an edge. -/
theorem toList_edgeLine (e : Nat × Nat) : (edgeLine e).toList =
    (toString e.1).toList ++ '-' :: '>' :: ((toString e.2).toList ++ ';' :: ['\n']) := by
  show (toString e.1 ++ "->" ++ toString e.2 ++ ";\n").toList = _
  simp

/-- The line of an edge has both ends: digits are neither a dash nor a semicolon. -/
theorem edgeLine_inj : edgeLine e = edgeLine e' ↔ e = e' := by
  obtain ⟨v, w⟩ := e
  obtain ⟨v', w'⟩ := e'
  have hdash (n : Nat) : '-' ∉ (toString n).toList := Decimal.not_mem_toString_nat (by decide) n
  have hsemicolon (n : Nat) : ';' ∉ (toString n).toList :=
    Decimal.not_mem_toString_nat (by decide) n
  rw [← String.toList_inj, toList_edgeLine, toList_edgeLine, append_cons_inj (hdash v) (hdash v'),
    List.cons_inj_right, append_cons_inj (hsemicolon w) (hsemicolon w'), String.toList_inj,
    String.toList_inj]
  simp [Nat.repr_inj]

/-- The lines of the text. -/
def lines (g : Drawing) : List String :=
  "digraph ast \x7b\n" :: (g.labels.mapIdx nodeLine ++ g.edges.map edgeLine ++ ["\x7d\n"])

/-- The text is its lines and nothing else. -/
theorem text_eq_join (g : Drawing) : g.text = String.join g.lines := by
  simp [text, lines, String.append_assoc]

/-- No label breaks its line. -/
def Unbroken (g : Drawing) : Prop := ∀ label ∈ g.labels, '\n' ∉ label.toList

/-- The line of a node is one line if its label has no break. -/
theorem isLine_nodeLine (h : '\n' ∉ label.toList) (i : Nat) : IsLine (nodeLine i label) := by
  have hnumber : '\n' ∉ (toString i ++ " [label=").toList := by
    rw [String.toList_append, List.mem_append, not_or]
    exact ⟨Decimal.not_mem_toString_nat (by decide) i, by decide⟩
  refine ⟨(toString i ++ " [label=").toList ++ '"' :: (escaped label.toList ++ ['"', ']', ';']),
    ?_, ?_⟩
  · rw [toList_nodeLine, toList_escape]
    simp
  · simp only [List.mem_append, List.mem_cons, not_or]
    exact ⟨hnumber, by decide, newline_not_mem_escaped h, by decide, by decide, by decide, by simp⟩

/-- The line of an edge always is. -/
theorem isLine_edgeLine (e : Nat × Nat) : IsLine (edgeLine e) := by
  have hdigits (n : Nat) : '\n' ∉ (toString n).toList := Decimal.not_mem_toString_nat (by decide) n
  refine ⟨(toString e.1).toList ++ '-' :: '>' :: ((toString e.2).toList ++ [';']), ?_, ?_⟩
  · rw [toList_edgeLine]
    simp
  · simp only [List.mem_append, List.mem_cons, not_or]
    exact ⟨hdigits e.1, by decide, by decide, hdigits e.2, by decide, by simp⟩

/-- So all lines of the text are lines, the first and the last one included. -/
theorem isLine_lines (h : g.Unbroken) : ∀ line ∈ g.lines, IsLine line := by
  have hheader : IsLine "digraph ast \x7b\n" := ⟨"digraph ast \x7b".toList, by decide, by decide⟩
  have hfooter : IsLine "\x7d\n" := ⟨"\x7d".toList, by decide, by decide⟩
  rw [lines, List.forall_mem_cons, List.forall_mem_append, List.forall_mem_append]
  refine ⟨hheader, ⟨?_, ?_⟩, List.forall_mem_singleton.2 hfooter⟩
  · intro line hline
    obtain ⟨i, hi, rfl⟩ := List.mem_mapIdx.1 hline
    exact isLine_nodeLine (h _ (List.getElem_mem hi)) i
  · rw [List.forall_mem_map]
    exact fun e _ => isLine_edgeLine e

/-- The line of a node, told from that of an edge by its bracket. -/
def isNodeLine (line : String) : Bool := line.toList.contains '['

/-- The bracket opens the attributes of a node. -/
theorem isNodeLine_nodeLine (i : Nat) (label : String) : isNodeLine (nodeLine i label) := by
  rw [isNodeLine, toList_nodeLine]
  simp

/-- An edge has no attributes. -/
theorem isNodeLine_edgeLine (e : Nat × Nat) : isNodeLine (edgeLine e) = false := by
  have hdigits (n : Nat) : '[' ∉ (toString n).toList := Decimal.not_mem_toString_nat (by decide) n
  have hmem : '[' ∉ (edgeLine e).toList := by
    rw [toList_edgeLine]
    simp only [List.mem_append, List.mem_cons, not_or]
    exact ⟨hdigits e.1, by decide, by decide, hdigits e.2, by decide, by decide, by simp⟩
  simpa [isNodeLine] using hmem

/-- Nodes and edges are told apart line by line. -/
theorem filter_isNodeLine (ns : List String) (es : List (Nat × Nat)) :
    (ns.mapIdx nodeLine ++ es.map edgeLine).filter isNodeLine = ns.mapIdx nodeLine ∧
      (ns.mapIdx nodeLine ++ es.map edgeLine).filter (fun line => !isNodeLine line) =
        es.map edgeLine := by
  have hnodes : ∀ line ∈ ns.mapIdx nodeLine, isNodeLine line := by
    intro line hline
    obtain ⟨i, hi, rfl⟩ := List.mem_mapIdx.1 hline
    exact isNodeLine_nodeLine i _
  have hedges : ∀ line ∈ es.map edgeLine, isNodeLine line = false := by
    rw [List.forall_mem_map]
    exact fun e _ => isNodeLine_edgeLine e
  rw [List.filter_append, List.filter_append]
  constructor
  · rw [List.filter_eq_self.2 hnodes, List.filter_eq_nil_iff.2 (by simpa using hedges),
      List.append_nil]
  · rw [List.filter_eq_nil_iff.2 (by simpa using hnodes),
      List.filter_eq_self.2 (by simpa using hedges), List.nil_append]

/-- Line by line, at equal positions. -/
theorem mapIdx_nodeLine_inj {ns ns' : List String}
    (h : ns.mapIdx nodeLine = ns'.mapIdx nodeLine) : ns = ns' := by
  refine List.ext_getElem? ?_
  intro i
  have hline : (ns.mapIdx nodeLine)[i]? = (ns'.mapIdx nodeLine)[i]? := by rw [h]
  rw [List.getElem?_mapIdx, List.getElem?_mapIdx] at hline
  exact Option.map_injective (fun _ _ => nodeLine_inj.1) hline

/-- **A text determines the drawing.** -/
theorem text_inj (h : g.Unbroken) (h' : g'.Unbroken) : g.text = g'.text ↔ g = g' := by
  constructor
  · intro htext
    rw [text_eq_join, text_eq_join] at htext
    have hlines := IsLine.join_inj (isLine_lines h) (isLine_lines h') htext
    obtain ⟨hboth, -⟩ := List.append_inj' (List.tail_eq_of_cons_eq hlines) rfl
    obtain ⟨hnodes, hedges⟩ := filter_isNodeLine g.labels g.edges
    obtain ⟨hnodes', hedges'⟩ := filter_isNodeLine g'.labels g'.edges
    have hlabels : g.labels = g'.labels := by
      apply mapIdx_nodeLine_inj
      rw [← hnodes, hboth, hnodes']
    have hpairs : g.edges = g'.edges := by
      apply List.map_injective_iff.2 fun _ _ => edgeLine_inj.1
      rw [← hedges, hboth, hedges']
    exact congrArg₂ Drawing.mk hlabels hpairs
  · rintro rfl
    rfl

end Drawing

/-! ## Diagrams from drawings

A node of a drawing has one label and one list of edges, so what hangs below it is determined level
by level. -/

namespace Diagram

mutual

/-- **A node shows one diagram only.** -/
theorem shownAt_unique {g : Drawing} {v : Nat} {d d' : Diagram} (h : d.ShownAt g v)
    (h' : d'.ShownAt g v) : d = d' := by
  cases d with
  | node label ds =>
    cases d' with
    | node label' ds' =>
      obtain ⟨hlabel, hds⟩ := h
      obtain ⟨hlabel', hds'⟩ := h'
      obtain rfl : label = label' := Option.some.inj (hlabel.symm.trans hlabel')
      rw [shownAll_unique hds hds']
termination_by structural d

/-- Nodes side by side. -/
theorem shownAll_unique {g : Drawing} {vs : List Nat} {ds ds' : List Diagram}
    (h : ShownAll g vs ds) (h' : ShownAll g vs ds') : ds = ds' := by
  cases ds with
  | nil =>
    cases vs with
    | cons v vs => cases h
    | nil =>
      cases ds' with
      | nil => rfl
      | cons d' ds' => cases h'
  | cons d ds =>
    cases vs with
    | nil => cases h
    | cons v vs =>
      cases ds' with
      | nil => cases h'
      | cons d' ds' =>
        obtain ⟨hd, hds⟩ := h
        obtain ⟨hd', hds'⟩ := h'
        rw [shownAt_unique hd hd', shownAll_unique hds hds']
termination_by structural ds

end

/-- A drawing shows one diagram only. -/
theorem drawing_inj {d d' : Diagram} : d.drawing = d'.drawing ↔ d = d' := by
  constructor
  · intro h
    have hshown : d'.ShownAt d.drawing 0 := h ▸ shownAt_drawing d'
    exact shownAt_unique (shownAt_drawing d) hshown
  · exact fun h => congrArg drawing h

end Diagram

/-! ## Programs from texts -/

open Diagram

namespace Program

variable {p q : Program} {ts us : List Token} {u v : String}

/-- A name that is a word does not break the line of its label. -/
theorem unbroken_of_scan (hscan : Lexer.scan u = .ok ts) (hread : ofTokens ts = .ok p) :
    p.diagram.drawing.Unbroken := by
  have hneutral : Neutral fun label => '\n' ∉ label.toList :=
    neutral_notMem (by decide) (by decide) (by decide)
  refine (forall_labels p.diagram).2 ((p.forall_diagram hneutral).2 ?_)
  intro x hx
  obtain ⟨⟨⟨-, hletters⟩, -⟩, -⟩ := admits_of_scan hscan hread hx
  show '\n' ∉ ("Id " ++ x.name).toList
  rw [String.toList_append, List.mem_append, not_or]
  refine ⟨by decide, ?_⟩
  intro hmem
  exact absurd (hletters _ hmem) (by decide)

/-- **The Graphviz text shows the program.** Two programs that are read from texts are drawn with
    the same text exactly if they are the same up to their indices and up to the empty statements
    between `begin` and `end`. -/
theorem dot_faithful (hscan : Lexer.scan u = .ok ts) (hread : ofTokens ts = .ok p)
    (hscan' : Lexer.scan v = .ok us) (hread' : ofTokens us = .ok q) :
    p.dot = q.dot ↔ p.compact.unplaced = q.compact.unplaced := by
  have hp := unbroken_of_scan hscan hread
  have hq := unbroken_of_scan hscan' hread'
  -- From the text to the drawing, to the diagram, to the tree.
  rw [p.dot_eq_render, q.dot_eq_render, render_eq_text, render_eq_text, Drawing.text_inj hp hq,
    drawing_inj, diagram_eq_iff]

/-- The program `begin x := 1 end .`, with the indices of its name and its number. -/
def single (x one : Nat) (value : Int) : Program :=
  ⟨.mk [] [] [] (.block [.assign ⟨"x", x⟩ (.mk none (.single (.single (.number ⟨value, one⟩))))])⟩

/-- The same with an empty statement on each side. -/
def padded (x one : Nat) (value : Int) : Program :=
  ⟨.mk [] [] [] (.block [.empty,
    .assign ⟨"x", x⟩ (.mk none (.single (.single (.number ⟨value, one⟩)))), .empty])⟩

/-- Semicolons without a statement do not show, numbers do. -/
theorem single_faithful :
    (single 6 11 1).dot = (padded 6 9 1).dot ∧ (single 6 11 1).dot ≠ (single 6 11 2).dot := by
  obtain ⟨ts, hscan, hread⟩ : ∃ ts, Lexer.scan "begin x := 1 end." = .ok ts ∧
      ofTokens ts = .ok (single 6 11 1) := ⟨_, by cbv, by cbv⟩
  obtain ⟨us, hscan', hread'⟩ : ∃ us, Lexer.scan "begin;x:=1;end." = .ok us ∧
      ofTokens us = .ok (padded 6 9 1) := ⟨_, by cbv, by cbv⟩
  obtain ⟨vs, hscan'', hread''⟩ : ∃ vs, Lexer.scan "begin x := 2 end." = .ok vs ∧
      ofTokens vs = .ok (single 6 11 2) := ⟨_, by cbv, by cbv⟩
  refine ⟨(dot_faithful hscan hread hscan' hread').2 rfl, ?_⟩
  intro h
  have htrees := (dot_faithful hscan hread hscan'' hread'').1 h
  simp [single, compact, unplaced, Block.compact, Block.unplaced, Statement.compact,
    Statement.compactAll, Statement.isEmpty, Statement.unplaced, Statement.unplacedAll,
    Expr.unplaced, Terms.unplaced, Term.unplaced, Factor.unplaced, Numeral.unplaced] at htrees

end Program

end PL0
