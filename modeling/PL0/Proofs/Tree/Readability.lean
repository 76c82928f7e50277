import PL0.Proofs.Lexer.Scanning
import PL0.Tree.Sexpr

/-!
# `Tree.Readability` — S-expressions are read in one way

An S-expression is an atom or a list of S-expressions; `Sexpr.text` writes lists in parentheses with
one blank between their items. Atoms are written as they are, so a text determines its S-expression
only if no atom is empty or has a blank or a parenthesis in it (`Sexpr.Readable`).

Main statement: `Sexpr.text_inj`. The induction needs the text with something behind it: an
S-expression is `Sexpr.Delimited` if it can be told from what stands behind it, provided that this
does not go on with an atom. Items of a list are told apart one after the other, up to the
parenthesis that closes it (`Sexpr.behind_append_inj`).
-/

namespace PL0

/-- An atom or a list of S-expressions. -/
inductive Sexpr where
  | atom (text : String)
  | list (items : List Sexpr)

namespace Sexpr

mutual

/-- The S-expression as it is written. -/
def text : Sexpr → String
  | atom t => t
  | list items => s!"({spaced (texts items)})"

def texts : List Sexpr → List String
  | [] => []
  | f :: fs => f.text :: texts fs

end

/-- A character that neither ends an atom nor begins a list. -/
def isPlain (c : Char) : Bool := c != ' ' && c != '(' && c != ')'

/-- **All atoms are runs of plain characters.** -/
inductive Readable : Sexpr → Prop where
  | atom {t : String} (h : IsRun isPlain t) : Readable (atom t)
  | list {items : List Sexpr} (h : ∀ f ∈ items, f.Readable) : Readable (list items)

/-! ## The characters of an S-expression -/

/-- The characters of S-expressions with a blank in front of each. -/
def behind : List Sexpr → List Char
  | [] => []
  | f :: fs => ' ' :: (f.text.toList ++ behind fs)

theorem toList_text_nil : (list []).text.toList = ['(', ')'] := rfl

theorem toList_spaced_cons (f : Sexpr) (fs : List Sexpr) :
    (spaced (texts (f :: fs))).toList = f.text.toList ++ behind fs := by
  induction fs generalizing f with
  | nil => simp [texts, spaced, behind]
  | cons g gs ih =>
    have hstep : spaced (texts (f :: g :: gs)) = f.text ++ " " ++ spaced (texts (g :: gs)) :=
      String.intercalate_cons_cons
    rw [hstep, String.toList_append, String.toList_append, ih g, behind, List.append_assoc]
    rfl

theorem toList_text_cons (f : Sexpr) (fs : List Sexpr) :
    (list (f :: fs)).text.toList = '(' :: (f.text.toList ++ (behind fs ++ [')'])) := by
  have htext : (list (f :: fs)).text = "(" ++ spaced (texts (f :: fs)) ++ ")" := rfl
  rw [htext, String.toList_append, String.toList_append, toList_spaced_cons, List.append_assoc,
    List.append_assoc]
  rfl

/-! ## Where an S-expression ends -/

/-- No atom goes on with the characters. -/
def Stops (cs : List Char) : Prop := ∀ c ∈ cs.head?, isPlain c = false

variable {f g : Sexpr} {fs gs : List Sexpr} {t : String} {us vs cs : List Char}

theorem stops_nil : Stops [] := fun _ hc => nomatch hc

theorem stops_behind : Stops (behind fs ++ ')' :: us) := by
  intro c hc
  cases fs with
  | nil =>
    cases hc
    rfl
  | cons f fs =>
    cases hc
    rfl

/-- A run of plain characters is what a text begins with up to the first character that is not
    plain. -/
theorem takeWhile_isPlain (ht : IsRun isPlain t) (hus : Stops us) :
    (t.toList ++ us).takeWhile isPlain = t.toList := by
  rw [List.takeWhile_append_of_pos ht.all]
  cases us with
  | nil => simp
  | cons c cs => simp [hus c rfl]

/-- A list does not begin with a plain character, an atom does. -/
theorem atom_append_ne_list (ht : IsRun isPlain t) (items : List Sexpr) :
    t.toList ++ us ≠ (list items).text.toList ++ vs := by
  obtain ⟨c, cs, rfl, hall⟩ := ht.exists_cons
  have hplain : isPlain c := hall c (List.mem_cons_self ..)
  intro h
  have hc : c = '(' := by
    cases items with
    | nil => simpa [toList_text_nil] using congrArg List.head? h
    | cons f fs => simpa [toList_text_cons] using congrArg List.head? h
  rw [hc] at hplain
  exact absurd hplain (by decide)

/-- A readable S-expression does not begin with the parenthesis that closes the list around it. -/
theorem Readable.ne_closing (h : f.Readable) : f.text.toList ++ us ≠ ')' :: vs := by
  cases h with
  | @atom t ht =>
    obtain ⟨c, cs, rfl, hall⟩ := ht.exists_cons
    have hplain : isPlain c := hall c (List.mem_cons_self ..)
    intro h
    have hc : c = ')' := by simpa [text] using congrArg List.head? h
    rw [hc] at hplain
    exact absurd hplain (by decide)
  | @list items hitems =>
    intro h
    cases items with
    | nil => simp [toList_text_nil] at h
    | cons f fs => simp [toList_text_cons] at h

/-! ## Unique readability -/

/-- **In front of texts that no atom goes on with,** no other S-expression begins the same text,
    and none ends elsewhere. -/
def Delimited (f : Sexpr) : Prop :=
  ∀ ⦃g us vs⦄, g.Readable → Stops us → Stops vs → f.text.toList ++ us = g.text.toList ++ vs →
    f = g ∧ us = vs

/-- The items of a list end at the parenthesis that closes it. -/
theorem behind_append_inj (hf : ∀ f ∈ fs, f.Delimited) (hg : ∀ g ∈ gs, g.Readable)
    (h : behind fs ++ ')' :: us = behind gs ++ ')' :: vs) : fs = gs ∧ us = vs := by
  induction fs generalizing gs with
  | nil =>
    cases gs with
    | nil => exact ⟨rfl, (List.cons.inj h).2⟩
    | cons g gs => simp [behind] at h
  | cons f fs ih =>
    obtain ⟨hf, hfs⟩ := List.forall_mem_cons.1 hf
    cases gs with
    | nil => simp [behind] at h
    | cons g gs =>
      obtain ⟨hg, hgs⟩ := List.forall_mem_cons.1 hg
      simp only [behind, List.cons_append, List.append_assoc, List.cons.injEq, true_and] at h
      obtain ⟨rfl, hrest⟩ := hf hg stops_behind stops_behind h
      obtain ⟨rfl, htail⟩ := ih hfs hgs hrest
      exact ⟨rfl, htail⟩

theorem delimited_list {items : List Sexpr} (hf : ∀ f ∈ items, f.Delimited)
    (hread : ∀ f ∈ items, f.Readable) : (list items).Delimited := by
  rintro g us vs hg - - h
  cases hg with
  | @atom t ht => exact absurd h.symm (atom_append_ne_list ht items)
  | @list others hothers =>
    cases items with
    | nil =>
      cases others with
      | nil => exact ⟨rfl, List.append_cancel_left h⟩
      | cons g gs =>
        simp only [toList_text_nil, toList_text_cons, List.cons_append, List.append_assoc,
          List.cons.injEq, true_and] at h
        exact absurd h.symm (hothers g (List.mem_cons_self ..)).ne_closing
    | cons f fs =>
      obtain ⟨hf, hfs⟩ := List.forall_mem_cons.1 hf
      cases others with
      | nil =>
        simp only [toList_text_nil, toList_text_cons, List.cons_append, List.append_assoc,
          List.cons.injEq, true_and] at h
        exact absurd h (hread f (List.mem_cons_self ..)).ne_closing
      | cons g gs =>
        obtain ⟨hg, hgs⟩ := List.forall_mem_cons.1 hothers
        simp only [toList_text_cons, List.cons_append, List.append_assoc, List.cons.injEq,
          true_and] at h
        obtain ⟨rfl, hrest⟩ := hf hg stops_behind stops_behind h
        obtain ⟨rfl, htail⟩ := behind_append_inj hfs hgs hrest
        exact ⟨rfl, htail⟩

/-- **Every readable S-expression is delimited.** -/
theorem Readable.delimited (hf : f.Readable) : f.Delimited := by
  induction hf with
  | list h ih => exact delimited_list ih h
  | @atom s hs =>
    rintro g us vs hg hus hvs h
    cases hg with
    | @list items hitems => exact absurd h (atom_append_ne_list hs items)
    | @atom t ht =>
      have htext : s.toList = t.toList := by
        rw [← takeWhile_isPlain hs hus, ← takeWhile_isPlain ht hvs]
        exact congrArg (List.takeWhile isPlain) h
      obtain rfl : s = t := String.toList_inj.1 htext
      exact ⟨rfl, List.append_cancel_left h⟩

/-- **The text of a readable S-expression determines it.** -/
theorem text_inj (hf : f.Readable) (hg : g.Readable) : f.text = g.text ↔ f = g := by
  constructor
  · intro h
    have happend : f.text.toList ++ [] = g.text.toList ++ [] := by rw [h]
    exact (hf.delimited hg stops_nil stops_nil happend).1
  · exact fun h => congrArg text h

/-- An atom with a blank in it may be taken for two. -/
example : (list [atom "x y"]).text = (list [atom "x", atom "y"]).text := by decide +kernel

end Sexpr

end PL0
