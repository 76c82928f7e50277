import PL0.Proofs.Tree.Readability
import PL0.Proofs.Tree.Fragments

/-!
# `Tree.Prefix` — the prefix form shows the whole tree

`Expr.toSexpr`, `Condition.toSexpr` and `Statement.toSexpr` are the S-expressions that
`PL0.Tree.Sexpr` writes (`Expr.text_toSexpr` and its like). A node that writes nothing of its own, a
sum of one term or a product of one factor, shares the S-expression of what is in it; no trees share
one otherwise, since the head of a list says what the list stands for, and its length tells a sign
from an operator (`Expr.toSexpr_eq_iff`, `Condition.toSexpr_eq_iff`, `Statement.toSexpr_eq_iff`).
Names and numbers are told apart by their first character.

The argument has two halves, which meet in the S-expressions. The text of an S-expression determines
it if its atoms are words (`Sexpr.text_inj`), and the atoms of a tree that was read from a text are
names, numerals and operators. The S-expression determines the tree up to its indices, which it does
not contain, by induction along both trees.

Main statement: `Program.sexpr_determines`. Two statements, conditions or expressions of programs
that are read from texts have the same prefix form exactly if they differ in their indices at most.
-/

namespace PL0

/-! ## Trees as S-expressions

Each function follows the one that writes the text, one case for each kind of node. What it makes of
a node is a list headed by a word or an operator, unless the node shows nothing of its own. -/

/-- A name is an atom; its index does not show. -/
def Ident.toSexpr (x : Ident) : Sexpr := .atom x.name

mutual

/-- A sign makes a list of two. Without a sign, an expression is what its sum is. -/
def Expr.toSexpr : Expr → Sexpr
  | .mk none ts => ts.toSexpr
  | .mk (some s) ts => .list [.atom s.symbol, ts.toSexpr]

/-- A sum of several terms is a list of three, and its left operand is a sum again. -/
def Terms.toSexpr : Terms → Sexpr
  | .single t => t.toSexpr
  | .join l op r => .list [.atom op.symbol, l.toSexpr, r.toSexpr]

/-- Likewise a product of several factors. -/
def Term.toSexpr : Term → Sexpr
  | .single f => f.toSexpr
  | .join l op r => .list [.atom op.symbol, l.toSexpr, r.toSexpr]

/-- Parentheses are kept, as a list headed by a word. -/
def Factor.toSexpr : Factor → Sexpr
  | .ident x => x.toSexpr
  | .number n => .atom (toString n.value)
  | .group e => .list [.atom "group", e.toSexpr]

end

/-- The operator is the head, for `odd` and for relations. -/
def Condition.toSexpr : Condition → Sexpr
  | .odd e => .list [.atom "odd", e.toSexpr]
  | .compare l r e => .list [.atom r.symbol, l.toSexpr, e.toSexpr]

mutual

/-- The word of a statement is its head; the empty statement is the one list without a head. -/
def Statement.toSexpr : Statement → Sexpr
  | .empty => .list []
  | .block body => .list (.atom "begin" :: Statement.toSexprs body)
  | .read targets => .list (.atom "read" :: targets.map Ident.toSexpr)
  | .write values => .list (.atom "write" :: values.map Expr.toSexpr)
  | .call callee => .list [.atom "call", callee.toSexpr]
  | .whileDo c body => .list [.atom "while", c.toSexpr, body.toSexpr]
  | .assign x e => .list [.atom ":=", x.toSexpr, e.toSexpr]
  | .ifThen c body => .list [.atom "if", c.toSexpr, body.toSexpr]

/-- The statements of a list, the empty ones included. -/
def Statement.toSexprs : List Statement → List Sexpr
  | [] => []
  | s :: ss => s.toSexpr :: Statement.toSexprs ss

end

/-! ## Trees are written as their S-expressions are

The text of a node is put together from the texts below it, with parentheses around and blanks
between. This is how the text of a list is put together, so both are compared node by node. -/

namespace Sexpr

/-- A list of two, as signs, `odd`, groups and calls are written. -/
theorem text_pair (f g : Sexpr) : (list [f, g]).text = s!"({f.text} {g.text})" := by
  show "(" ++ (f.text ++ " " ++ g.text) ++ ")" = "(" ++ f.text ++ " " ++ g.text ++ ")"
  simp only [String.append_assoc]

/-- A list of three, as operators, assignments and loops are written. -/
theorem text_triple (f g h : Sexpr) :
    (list [f, g, h]).text = s!"({f.text} {g.text} {h.text})" := by
  show "(" ++ (f.text ++ " " ++ g.text ++ " " ++ h.text) ++ ")" =
    "(" ++ f.text ++ " " ++ g.text ++ " " ++ h.text ++ ")"
  simp only [String.append_assoc]

/-- The head of a list stands in front of the others with a blank between them, if there are any. -/
theorem text_headed (f : Sexpr) {fs : List Sexpr} (h : fs ≠ []) :
    (list (f :: fs)).text = s!"({f.text} {spaced (texts fs)})" := by
  obtain ⟨g, gs, rfl⟩ := List.exists_cons_of_ne_nil h
  have hspaced : spaced (texts (f :: g :: gs)) = f.text ++ " " ++ spaced (texts (g :: gs)) :=
    String.intercalate_cons_cons
  show "(" ++ spaced (texts (f :: g :: gs)) ++ ")" =
    "(" ++ f.text ++ " " ++ spaced (texts (g :: gs)) ++ ")"
  rw [hspaced]
  simp only [String.append_assoc]

/-- If each phrase is written as its S-expression is, then so is each of a list. -/
theorem texts_map {α : Type} {f : α → Sexpr} {sexpr : α → String}
    (h : ∀ x, (f x).text = sexpr x) (xs : List α) : texts (xs.map f) = xs.map sexpr := by
  induction xs with
  | nil => rfl
  | cons x xs ih => rw [List.map_cons, texts, h, ih, List.map_cons]

end Sexpr

open Sexpr

mutual

/-- Expressions are written as their S-expressions are. The sign is a head in front of the sum. -/
theorem Expr.text_toSexpr (e : Expr) : e.toSexpr.text = e.sexpr := by
  cases e with
  | mk sign ts =>
    cases sign with
    | none => exact Terms.text_toSexpr ts
    | some s =>
      rw [Expr.toSexpr, text_pair, Terms.text_toSexpr]
      rfl

/-- Sums are written as their S-expressions are. -/
theorem Terms.text_toSexpr (ts : Terms) : ts.toSexpr.text = ts.sexpr := by
  cases ts with
  | single t => exact Term.text_toSexpr t
  | join l op r =>
    rw [Terms.toSexpr, text_triple, Terms.text_toSexpr, Term.text_toSexpr]
    rfl

/-- Products are written as their S-expressions are. -/
theorem Term.text_toSexpr (t : Term) : t.toSexpr.text = t.sexpr := by
  cases t with
  | single f => exact Factor.text_toSexpr f
  | join l op r =>
    rw [Term.toSexpr, text_triple, Term.text_toSexpr, Factor.text_toSexpr]
    rfl

/-- Factors are written as their S-expressions are. -/
theorem Factor.text_toSexpr (f : Factor) : f.toSexpr.text = f.sexpr := by
  cases f with
  | ident x => rfl
  | number n => rfl
  | group e =>
    rw [Factor.toSexpr, text_pair, Expr.text_toSexpr]
    rfl

end

/-- Conditions are written as their S-expressions are. -/
theorem Condition.text_toSexpr (c : Condition) : c.toSexpr.text = c.sexpr := by
  cases c with
  | odd e =>
    rw [toSexpr, text_pair, Expr.text_toSexpr]
    rfl
  | compare l r e =>
    rw [toSexpr, text_triple, Expr.text_toSexpr, Expr.text_toSexpr]
    rfl

theorem Statement.toSexprs_ne_nil {ss : List Statement} (h : ss ≠ []) :
    Statement.toSexprs ss ≠ [] := by
  cases ss with
  | nil => exact absurd rfl h
  | cons s ss => exact List.cons_ne_nil _ _

mutual

/-- A statement with an empty list in it is written with a blank that its S-expression does not
    have. -/
theorem Statement.text_toSexpr (s : Statement) (hs : s.Filled) : s.toSexpr.text = s.sexpr := by
  cases s with
  | empty => rfl
  | block body =>
    -- The lists of a filled statement are not empty; so there is a blank behind the head in both.
    obtain ⟨hne, hbody⟩ := hs
    rw [Statement.toSexpr, text_headed _ (Statement.toSexprs_ne_nil hne),
      Statement.texts_toSexprs body hbody]
    rfl
  | read targets =>
    have hne : targets.map Ident.toSexpr ≠ [] := fun h => hs (List.map_eq_nil_iff.1 h)
    have hnames : texts (targets.map Ident.toSexpr) = targets.map Ident.name :=
      texts_map (fun _ => rfl) targets
    rw [Statement.toSexpr, text_headed _ hne, hnames]
    rfl
  | write values =>
    have hne : values.map Expr.toSexpr ≠ [] := fun h => hs (List.map_eq_nil_iff.1 h)
    rw [Statement.toSexpr, text_headed _ hne, texts_map Expr.text_toSexpr]
    rfl
  | call x =>
    rw [Statement.toSexpr, text_pair]
    rfl
  | whileDo c body =>
    rw [Statement.toSexpr, text_triple, Condition.text_toSexpr, Statement.text_toSexpr body hs]
    rfl
  | assign x e =>
    rw [Statement.toSexpr, text_triple, Expr.text_toSexpr]
    rfl
  | ifThen c body =>
    rw [Statement.toSexpr, text_triple, Condition.text_toSexpr, Statement.text_toSexpr body hs]
    rfl

/-- The statements of a list are written as their S-expressions are. -/
theorem Statement.texts_toSexprs (ss : List Statement) (hs : Statement.FilledAll ss) :
    texts (Statement.toSexprs ss) = Statement.sexprs ss := by
  cases ss with
  | nil => rfl
  | cons s ss =>
    rw [Statement.toSexprs, texts, Statement.text_toSexpr s hs.1, Statement.texts_toSexprs ss hs.2]
    rfl

end

/-! ## The S-expressions of trees are readable

An S-expression is readable if its atoms are words without blanks and parentheses. Names of trees
that were read from texts consist of letters, numerals of digits and perhaps a sign, and heads are
known. That names are words is a hypothesis here; `Tree.Fragments` shows that it holds of what has
been scanned. -/

/-- A run of characters of one kind is one of every kind that includes it. -/
theorem IsRun.mono {p q : Char → Bool} {text : String} (h : IsRun p text) (hpq : ∀ c, p c → q c) :
    IsRun q text :=
  ⟨h.ne_nil, fun c hc => hpq c (h.all c hc)⟩

namespace Decimal

/-- A numeral is a run of digits and signs. -/
theorem Denotes.isRun {t : String} {v : Int} (h : Denotes t.toList v) : IsRun isSignOrDigit t := by
  obtain ⟨c, hc, -⟩ := h.exists_digit
  exact ⟨List.ne_nil_of_mem hc, h.forall_mem⟩

/-- No letter is a digit or a sign. -/
theorem isSignOrDigit_of_isAlpha {c : Char} (h : c.isAlpha) : isSignOrDigit c = false := by
  have hplus : c ≠ '+' := by
    rintro rfl
    exact absurd h (by decide)
  have hminus : c ≠ '-' := by
    rintro rfl
    exact absurd h (by decide)
  simp [isSignOrDigit, hplus, hminus, not_isDigit_of_isAlpha h]

end Decimal

/-- No name is a number. -/
theorem Ident.IsWord.ne_toString {x : Ident} (hx : x.IsWord) (v : Int) : x.name ≠ toString v := by
  intro h
  have hv := (Decimal.denotes_toString v).isRun
  rw [← h] at hv
  -- Any character of the name will do: it is a letter, and one of a numeral is not.
  obtain ⟨c, hc⟩ := List.exists_mem_of_ne_nil _ hx.ne_nil
  have hletter := Decimal.isSignOrDigit_of_isAlpha (hx.all c hc)
  rw [hv.all c hc] at hletter
  cases hletter

namespace Sexpr

/-- A character that is not plain is neither in a name nor in a numeral. -/
theorem eq_of_not_isPlain {c : Char} (h : ¬ isPlain c) : c = ' ' ∨ c = '(' ∨ c = ')' := by
  simpa [isPlain, Classical.or_iff_not_imp_left] using h

/-- Names have no character that delimits atoms. -/
theorem isPlain_of_isAlpha {c : Char} (h : c.isAlpha) : isPlain c := by
  by_contra hc
  rcases eq_of_not_isPlain hc with rfl | rfl | rfl <;> exact absurd h (by decide)

/-- Numerals have no character that delimits atoms. -/
theorem isPlain_of_isSignOrDigit {c : Char} (h : Decimal.isSignOrDigit c) : isPlain c := by
  by_contra hc
  rcases eq_of_not_isPlain hc with rfl | rfl | rfl <;> exact absurd h (by decide)

/-- A word that a list may have as its head. -/
theorem isRun_symbol {t : String} (hne : t.toList ≠ []) (hall : t.toList.all isPlain) :
    IsRun isPlain t :=
  ⟨hne, List.all_eq_true.1 hall⟩

/-- A list is readable if its head is a word and what stands behind it is readable. -/
theorem readable_headed {t : String} {fs : List Sexpr} (ht : IsRun isPlain t)
    (hfs : ∀ f ∈ fs, f.Readable) : (list (atom t :: fs)).Readable :=
  .list (List.forall_mem_cons.2 ⟨.atom ht, hfs⟩)

theorem readable_pair {t : String} {f : Sexpr} (ht : IsRun isPlain t) (hf : f.Readable) :
    (list [atom t, f]).Readable :=
  readable_headed ht (List.forall_mem_singleton.2 hf)

theorem readable_triple {t : String} {f g : Sexpr} (ht : IsRun isPlain t) (hf : f.Readable)
    (hg : g.Readable) : (list [atom t, f, g]).Readable :=
  readable_headed ht (List.forall_mem_cons.2 ⟨hf, List.forall_mem_singleton.2 hg⟩)

end Sexpr

/-- Operators are words that a list may have as its head. -/
theorem Sign.isRun_symbol (s : Sign) : IsRun Sexpr.isPlain s.symbol := by
  cases s <;> exact Sexpr.isRun_symbol (by decide) (by decide)

theorem Arith.isRun_symbol (op : Arith) : IsRun Sexpr.isPlain op.symbol := by
  cases op <;> exact Sexpr.isRun_symbol (by decide) (by decide)

theorem Relation.isRun_symbol (r : Relation) : IsRun Sexpr.isPlain r.symbol := by
  cases r <;> exact Sexpr.isRun_symbol (by decide) (by decide)

/-- A name that is a word is a readable atom. -/
theorem Ident.readable_toSexpr {x : Ident} (hx : x.IsWord) : x.toSexpr.Readable :=
  .atom (hx.mono fun _ => Sexpr.isPlain_of_isAlpha)

mutual

/-- An expression is readable if all names in it are words. -/
theorem Expr.readable_toSexpr {e : Expr} (hx : ∀ x ∈ e.idents, x.IsWord) : e.toSexpr.Readable := by
  cases e with
  | mk sign ts =>
    have hts : ts.toSexpr.Readable := Terms.readable_toSexpr hx
    cases sign with
    | none => exact hts
    | some s => exact readable_pair s.isRun_symbol hts

theorem Terms.readable_toSexpr {ts : Terms} (hx : ∀ x ∈ ts.idents, x.IsWord) :
    ts.toSexpr.Readable := by
  cases ts with
  | single t => exact Term.readable_toSexpr (t := t) hx
  | join l op r =>
    obtain ⟨hl, hr⟩ := List.forall_mem_append.1 hx
    exact readable_triple op.arith.isRun_symbol (Terms.readable_toSexpr hl)
      (Term.readable_toSexpr hr)

theorem Term.readable_toSexpr {t : Term} (hx : ∀ x ∈ t.idents, x.IsWord) : t.toSexpr.Readable := by
  cases t with
  | single f => exact Factor.readable_toSexpr (f := f) hx
  | join l op r =>
    obtain ⟨hl, hr⟩ := List.forall_mem_append.1 hx
    exact readable_triple op.arith.isRun_symbol (Term.readable_toSexpr hl)
      (Factor.readable_toSexpr hr)

/-- The atoms of an expression are its names and numerals. -/
theorem Factor.readable_toSexpr {f : Factor} (hx : ∀ x ∈ f.idents, x.IsWord) :
    f.toSexpr.Readable := by
  cases f with
  | ident x => exact Ident.readable_toSexpr (hx x (List.mem_singleton_self x))
  | number n =>
    have hrun := (Decimal.denotes_toString n.value).isRun
    exact .atom (hrun.mono fun _ => Sexpr.isPlain_of_isSignOrDigit)
  | group e =>
    have he : e.toSexpr.Readable := Expr.readable_toSexpr hx
    exact readable_pair (Sexpr.isRun_symbol (by decide) (by decide)) he

end

/-- A condition is readable if all names in it are words. -/
theorem Condition.readable_toSexpr {c : Condition} (hx : ∀ x ∈ c.idents, x.IsWord) :
    c.toSexpr.Readable := by
  cases c with
  | odd e =>
    have he : e.toSexpr.Readable := Expr.readable_toSexpr hx
    exact readable_pair (Sexpr.isRun_symbol (by decide) (by decide)) he
  | compare l r e =>
    obtain ⟨hl, he⟩ := List.forall_mem_append.1 hx
    exact readable_triple r.isRun_symbol (Expr.readable_toSexpr hl) (Expr.readable_toSexpr he)

mutual

/-- A statement is readable if all names in it are words, its targets and callees among them. -/
theorem Statement.readable_toSexpr {s : Statement} (hx : ∀ x ∈ s.idents, x.IsWord) :
    s.toSexpr.Readable := by
  cases s with
  | empty => exact .list (List.forall_mem_nil _)
  | block body =>
    have hbody : ∀ f ∈ Statement.toSexprs body, f.Readable := Statement.readable_toSexprs hx
    exact readable_headed (Sexpr.isRun_symbol (by decide) (by decide)) hbody
  | read targets =>
    refine readable_headed (Sexpr.isRun_symbol (by decide) (by decide)) (List.forall_mem_map.2 ?_)
    intro x hm
    exact Ident.readable_toSexpr (hx x hm)
  | write values =>
    refine readable_headed (Sexpr.isRun_symbol (by decide) (by decide)) (List.forall_mem_map.2 ?_)
    intro e he
    apply Expr.readable_toSexpr
    intro x hm
    exact hx x (List.mem_flatMap.2 ⟨e, he, hm⟩)
  | call x =>
    have hname : x.IsWord := hx x (List.mem_singleton_self x)
    exact readable_pair (Sexpr.isRun_symbol (by decide) (by decide)) (Ident.readable_toSexpr hname)
  | assign x e =>
    obtain ⟨he, hname⟩ := List.forall_mem_append.1 hx
    have hname : x.IsWord := hname x (List.mem_singleton_self x)
    exact readable_triple (Sexpr.isRun_symbol (by decide) (by decide))
      (Ident.readable_toSexpr hname) (Expr.readable_toSexpr he)
  | whileDo c body | ifThen c body =>
    obtain ⟨hc, hbody⟩ := List.forall_mem_append.1 hx
    exact readable_triple (Sexpr.isRun_symbol (by decide) (by decide))
      (Condition.readable_toSexpr hc) (Statement.readable_toSexpr (s := body) hbody)

/-- The statements of a list are readable if all names in them are words. -/
theorem Statement.readable_toSexprs {ss : List Statement}
    (hx : ∀ x ∈ Statement.identsOf ss, x.IsWord) : ∀ f ∈ Statement.toSexprs ss, f.Readable := by
  cases ss with
  | nil => exact List.forall_mem_nil _
  | cons s ss =>
    obtain ⟨hone, hmore⟩ := List.forall_mem_append.1 hx
    refine List.forall_mem_cons.2 ⟨Statement.readable_toSexpr hone, ?_⟩
    exact Statement.readable_toSexprs hmore

end

/-! ## S-expressions determine their trees

No two operators of a kind have a symbol in common, nor an operator of sums and one of products.
Signs have their symbols in common with the operators of sums; there the length of the list tells
which is meant. -/

/-- Signs are told apart by their symbols, and so are the operators below. -/
theorem Sign.symbol_inj {s t : Sign} : s.symbol = t.symbol ↔ s = t := by
  cases s <;> cases t <;> decide

theorem AddOp.symbol_inj {op op' : AddOp} : op.symbol = op'.symbol ↔ op = op' := by
  cases op <;> cases op' <;> decide

theorem MulOp.symbol_inj {op op' : MulOp} : op.symbol = op'.symbol ↔ op = op' := by
  cases op <;> cases op' <;> decide

/-- A product is not headed like a sum. -/
theorem MulOp.symbol_ne (op : MulOp) (op' : AddOp) : op.symbol ≠ op'.symbol := by
  cases op <;> cases op' <;> decide

theorem Relation.symbol_inj {r r' : Relation} : r.symbol = r'.symbol ↔ r = r' := by
  cases r <;> cases r' <;> decide

/-- A factor is an atom or a group. -/
theorem Factor.toSexpr_ne_triple (f : Factor) (g h k : Sexpr) : f.toSexpr ≠ .list [g, h, k] := by
  cases f <;> simp [Factor.toSexpr, Ident.toSexpr]

/-- A product is no sum. -/
theorem Term.toSexpr_ne_join (t : Term) (op : AddOp) (g h : Sexpr) :
    t.toSexpr ≠ .list [.atom op.symbol, g, h] := by
  cases t with
  | single f => exact f.toSexpr_ne_triple _ _ _
  | join l op' r => simp [Term.toSexpr, MulOp.symbol_ne]

/-- Nothing but a sign stands in front of a single S-expression. -/
theorem Terms.toSexpr_ne_signed (ts : Terms) (s : Sign) (g : Sexpr) :
    ts.toSexpr ≠ .list [.atom s.symbol, g] := by
  cases ts with
  | join l op r => simp [Terms.toSexpr]
  | single t =>
    cases t with
    | join l op r => simp [Terms.toSexpr, Term.toSexpr]
    | single f =>
      cases f with
      | ident x => simp [Terms.toSexpr, Term.toSexpr, Factor.toSexpr, Ident.toSexpr]
      | number n => simp [Terms.toSexpr, Term.toSexpr, Factor.toSexpr]
      | group e => cases s <;> simp [Terms.toSexpr, Term.toSexpr, Factor.toSexpr, Sign.symbol]

/-- Names have the same S-expression exactly if they differ in their indices at most. -/
theorem Ident.toSexpr_eq_iff {x y : Ident} : x.toSexpr = y.toSexpr ↔ x.unplaced = y.unplaced := by
  simp [toSexpr, unplaced]

mutual

/-- **S-expressions determine expressions** up to the indices of their names and numbers. Signed and
    unsigned ones are never the same. -/
theorem Expr.toSexpr_eq_iff {e e' : Expr} (hx : ∀ x ∈ e.idents, x.IsWord)
    (hy : ∀ x ∈ e'.idents, x.IsWord) : e.toSexpr = e'.toSexpr ↔ e.unplaced = e'.unplaced := by
  cases e with
  | mk sign ts =>
    cases e' with
    | mk sign' ts' =>
      have ih : ts.toSexpr = ts'.toSexpr ↔ ts.unplaced = ts'.unplaced := Terms.toSexpr_eq_iff hx hy
      -- Four cases, as either expression has a sign or none. If one only has a sign, neither side
      -- of the equivalence holds.
      cases sign with
      | none =>
        cases sign' with
        | none => simp [Expr.toSexpr, Expr.unplaced, ih]
        | some s => simp [Expr.toSexpr, Expr.unplaced, Terms.toSexpr_ne_signed]
      | some s =>
        cases sign' with
        | none =>
          have hne := (ts'.toSexpr_ne_signed s ts.toSexpr).symm
          simp [Expr.toSexpr, Expr.unplaced, hne]
        | some s' => simp [Expr.toSexpr, Expr.unplaced, ih, Sign.symbol_inj]
termination_by structural e

/-- Sums, single terms and groupings to the left are told apart. -/
theorem Terms.toSexpr_eq_iff {ts ts' : Terms} (hx : ∀ x ∈ ts.idents, x.IsWord)
    (hy : ∀ x ∈ ts'.idents, x.IsWord) : ts.toSexpr = ts'.toSexpr ↔ ts.unplaced = ts'.unplaced := by
  cases ts with
  | single t =>
    cases ts' with
    | single t' =>
      have ih : t.toSexpr = t'.toSexpr ↔ t.unplaced = t'.unplaced := Term.toSexpr_eq_iff hx hy
      simp [Terms.toSexpr, Terms.unplaced, ih]
    -- A single term may be a product, but no sum.
    | join l' op' r' => simp [Terms.toSexpr, Terms.unplaced, Term.toSexpr_ne_join]
  | join l op r =>
    cases ts' with
    | single t' =>
      have hne := (t'.toSexpr_ne_join op l.toSexpr r.toSexpr).symm
      simp [Terms.toSexpr, Terms.unplaced, hne]
    | join l' op' r' =>
      obtain ⟨hxl, hxr⟩ := List.forall_mem_append.1 hx
      obtain ⟨hyl, hyr⟩ := List.forall_mem_append.1 hy
      simp [Terms.toSexpr, Terms.unplaced, AddOp.symbol_inj, Terms.toSexpr_eq_iff hxl hyl,
        Term.toSexpr_eq_iff hxr hyr, and_left_comm]
termination_by structural ts

/-- So are products, single factors and groupings to the left. -/
theorem Term.toSexpr_eq_iff {t t' : Term} (hx : ∀ x ∈ t.idents, x.IsWord)
    (hy : ∀ x ∈ t'.idents, x.IsWord) : t.toSexpr = t'.toSexpr ↔ t.unplaced = t'.unplaced := by
  cases t with
  | single f =>
    cases t' with
    | single f' =>
      have ih : f.toSexpr = f'.toSexpr ↔ f.unplaced = f'.unplaced := Factor.toSexpr_eq_iff hx hy
      simp [Term.toSexpr, Term.unplaced, ih]
    | join l' op' r' => simp [Term.toSexpr, Term.unplaced, Factor.toSexpr_ne_triple]
  | join l op r =>
    cases t' with
    | single f' =>
      have hne := (f'.toSexpr_ne_triple (.atom op.symbol) l.toSexpr r.toSexpr).symm
      simp [Term.toSexpr, Term.unplaced, hne]
    | join l' op' r' =>
      obtain ⟨hxl, hxr⟩ := List.forall_mem_append.1 hx
      obtain ⟨hyl, hyr⟩ := List.forall_mem_append.1 hy
      simp [Term.toSexpr, Term.unplaced, MulOp.symbol_inj, Term.toSexpr_eq_iff hxl hyl,
        Factor.toSexpr_eq_iff hxr hyr, and_left_comm]
termination_by structural t

/-- Names, numbers and groups are told apart. This is where names have to be words. -/
theorem Factor.toSexpr_eq_iff {f f' : Factor} (hx : ∀ x ∈ f.idents, x.IsWord)
    (hy : ∀ x ∈ f'.idents, x.IsWord) : f.toSexpr = f'.toSexpr ↔ f.unplaced = f'.unplaced := by
  cases f with
  | ident x =>
    have hname : x.IsWord := hx x (List.mem_singleton_self x)
    cases f' with
    | ident y => simp [Factor.toSexpr, Factor.unplaced, Ident.toSexpr_eq_iff]
    | number n =>
      simpa [Factor.toSexpr, Factor.unplaced, Ident.toSexpr] using hname.ne_toString n.value
    | group e' => simp [Factor.toSexpr, Factor.unplaced, Ident.toSexpr]
  | number n =>
    cases f' with
    | ident y =>
      have hname : y.IsWord := hy y (List.mem_singleton_self y)
      simpa [Factor.toSexpr, Factor.unplaced, Ident.toSexpr] using (hname.ne_toString n.value).symm
    | number m => simp [Factor.toSexpr, Factor.unplaced, Numeral.unplaced, Int.repr_inj]
    | group e' => simp [Factor.toSexpr, Factor.unplaced]
  | group e =>
    cases f' with
    | ident y => simp [Factor.toSexpr, Factor.unplaced, Ident.toSexpr]
    | number m => simp [Factor.toSexpr, Factor.unplaced]
    | group e' =>
      have ih : e.toSexpr = e'.toSexpr ↔ e.unplaced = e'.unplaced := Expr.toSexpr_eq_iff hx hy
      simp [Factor.toSexpr, Factor.unplaced, ih]
termination_by structural f

end

/-- S-expressions determine conditions: no relation is written like `odd`. -/
theorem Condition.toSexpr_eq_iff {c c' : Condition} (hx : ∀ x ∈ c.idents, x.IsWord)
    (hy : ∀ x ∈ c'.idents, x.IsWord) : c.toSexpr = c'.toSexpr ↔ c.unplaced = c'.unplaced := by
  cases c with
  | odd e =>
    cases c' with
    | odd e' =>
      have he : e.toSexpr = e'.toSexpr ↔ e.unplaced = e'.unplaced := Expr.toSexpr_eq_iff hx hy
      simp [toSexpr, unplaced, he]
    | compare l' r' e' => simp [toSexpr, unplaced]
  | compare l r e =>
    cases c' with
    | odd e' => simp [toSexpr, unplaced]
    | compare l' r' e' =>
      obtain ⟨hxl, hxe⟩ := List.forall_mem_append.1 hx
      obtain ⟨hyl, hye⟩ := List.forall_mem_append.1 hy
      simp [toSexpr, unplaced, Relation.symbol_inj, Expr.toSexpr_eq_iff hxl hyl,
        Expr.toSexpr_eq_iff hxe hye, and_left_comm]

/-- Where two functions make the same differences between elements, they make the same between
    lists. -/
theorem map_eq_map_iff_of_forall {α β γ : Type} {f : α → β} {g : α → γ} {xs ys : List α}
    (h : ∀ x ∈ xs, ∀ y ∈ ys, f x = f y ↔ g x = g y) :
    xs.map f = ys.map f ↔ xs.map g = ys.map g := by
  induction xs generalizing ys with
  | nil => simp
  | cons x xs ih =>
    cases ys with
    | nil => simp
    | cons y ys =>
      have hhead := h x (List.mem_cons_self ..) y (List.mem_cons_self ..)
      have htail := ih fun x hx y hy =>
        h x (List.mem_cons_of_mem _ hx) y (List.mem_cons_of_mem _ hy)
      simp [hhead, htail]

mutual

/-- **S-expressions determine statements.** Statements of different kinds have different heads, and
    the empty one has none. -/
theorem Statement.toSexpr_eq_iff {s t : Statement} (hx : ∀ x ∈ s.idents, x.IsWord)
    (hy : ∀ x ∈ t.idents, x.IsWord) : s.toSexpr = t.toSexpr ↔ s.unplaced = t.unplaced := by
  cases s with
  | empty => cases t <;> simp [Statement.toSexpr, Statement.unplaced]
  | block body =>
    cases t with
    | block body' =>
      -- Of the same kind: the statements of the two bodies are compared one by one.
      have ih : Statement.toSexprs body = Statement.toSexprs body' ↔
          Statement.unplacedAll body = Statement.unplacedAll body' :=
        Statement.toSexprs_eq_iff hx hy
      simp [Statement.toSexpr, Statement.unplaced, ih]
    | _ => simp [Statement.toSexpr, Statement.unplaced]
  | read targets =>
    cases t with
    | read targets' =>
      have htargets : targets.map Ident.toSexpr = targets'.map Ident.toSexpr ↔
          targets.map Ident.unplaced = targets'.map Ident.unplaced :=
        map_eq_map_iff_of_forall fun _ _ _ _ => Ident.toSexpr_eq_iff
      simp [Statement.toSexpr, Statement.unplaced, htargets]
    | _ => simp [Statement.toSexpr, Statement.unplaced]
  | write values =>
    cases t with
    | write values' =>
      have hvalues : values.map Expr.toSexpr = values'.map Expr.toSexpr ↔
          values.map Expr.unplaced = values'.map Expr.unplaced := by
        apply map_eq_map_iff_of_forall
        intro e he e' he'
        apply Expr.toSexpr_eq_iff
        · intro x hm
          exact hx x (List.mem_flatMap.2 ⟨e, he, hm⟩)
        · intro x hm
          exact hy x (List.mem_flatMap.2 ⟨e', he', hm⟩)
      simp [Statement.toSexpr, Statement.unplaced, hvalues]
    | _ => simp [Statement.toSexpr, Statement.unplaced]
  | call x =>
    cases t with
    | call y => simp [Statement.toSexpr, Statement.unplaced, Ident.toSexpr_eq_iff]
    | _ => simp [Statement.toSexpr, Statement.unplaced]
  | assign x e =>
    cases t with
    | assign y e' =>
      have he : e.toSexpr = e'.toSexpr ↔ e.unplaced = e'.unplaced :=
        Expr.toSexpr_eq_iff (List.forall_mem_append.1 hx).1 (List.forall_mem_append.1 hy).1
      simp [Statement.toSexpr, Statement.unplaced, Ident.toSexpr_eq_iff, he]
    | _ => simp [Statement.toSexpr, Statement.unplaced]
  | whileDo c body =>
    cases t with
    | whileDo c' body' =>
      obtain ⟨hxc, hxb⟩ := List.forall_mem_append.1 hx
      obtain ⟨hyc, hyb⟩ := List.forall_mem_append.1 hy
      have ih : body.toSexpr = body'.toSexpr ↔ body.unplaced = body'.unplaced :=
        Statement.toSexpr_eq_iff hxb hyb
      simp [Statement.toSexpr, Statement.unplaced, Condition.toSexpr_eq_iff hxc hyc, ih]
    | _ => simp [Statement.toSexpr, Statement.unplaced]
  | ifThen c body =>
    cases t with
    | ifThen c' body' =>
      obtain ⟨hxc, hxb⟩ := List.forall_mem_append.1 hx
      obtain ⟨hyc, hyb⟩ := List.forall_mem_append.1 hy
      have ih : body.toSexpr = body'.toSexpr ↔ body.unplaced = body'.unplaced :=
        Statement.toSexpr_eq_iff hxb hyb
      simp [Statement.toSexpr, Statement.unplaced, Condition.toSexpr_eq_iff hxc hyc, ih]
    | _ => simp [Statement.toSexpr, Statement.unplaced]

/-- Lists of statements of different lengths have different S-expressions, since the empty
    statements count. -/
theorem Statement.toSexprs_eq_iff {ss us : List Statement}
    (hx : ∀ x ∈ Statement.identsOf ss, x.IsWord) (hy : ∀ x ∈ Statement.identsOf us, x.IsWord) :
    Statement.toSexprs ss = Statement.toSexprs us ↔
      Statement.unplacedAll ss = Statement.unplacedAll us := by
  cases ss with
  | nil => cases us <;> simp [Statement.toSexprs, Statement.unplacedAll]
  | cons s ss =>
    cases us with
    | nil => simp [Statement.toSexprs, Statement.unplacedAll]
    | cons t us =>
      obtain ⟨hxs, hxss⟩ := List.forall_mem_append.1 hx
      obtain ⟨hyt, hyus⟩ := List.forall_mem_append.1 hy
      simp [Statement.toSexprs, Statement.unplacedAll, Statement.toSexpr_eq_iff hxs hyt,
        Statement.toSexprs_eq_iff hxss hyus]

end

/-! ## Prefix forms determine their trees

From equal texts to equal S-expressions, as these are readable, and on to equal trees. -/

/-- Legible expressions have the same prefix form exactly if they differ in their indices at
    most. -/
theorem Expr.sexpr_eq_iff {e e' : Expr} (he : (Fragment.expr e).Legible)
    (he' : (Fragment.expr e').Legible) : e.sexpr = e'.sexpr ↔ e.unplaced = e'.unplaced := by
  rw [← e.text_toSexpr, ← e'.text_toSexpr, text_inj (readable_toSexpr he) (readable_toSexpr he')]
  exact toSexpr_eq_iff he he'

/-- Legible conditions likewise. -/
theorem Condition.sexpr_eq_iff {c c' : Condition} (hc : (Fragment.condition c).Legible)
    (hc' : (Fragment.condition c').Legible) : c.sexpr = c'.sexpr ↔ c.unplaced = c'.unplaced := by
  rw [← c.text_toSexpr, ← c'.text_toSexpr, text_inj (readable_toSexpr hc) (readable_toSexpr hc')]
  exact toSexpr_eq_iff hc hc'

/-- Legible statements likewise; they are legible only if they are filled. -/
theorem Statement.sexpr_eq_iff {s t : Statement} (hs : (Fragment.statement s).Legible)
    (ht : (Fragment.statement t).Legible) : s.sexpr = t.sexpr ↔ s.unplaced = t.unplaced := by
  rw [← s.text_toSexpr hs.1, ← t.text_toSexpr ht.1,
    text_inj (readable_toSexpr hs.2) (readable_toSexpr ht.2)]
  exact toSexpr_eq_iff hs.2 ht.2

namespace Program

/-- **The prefix form determines the tree.** Two statements of programs read from texts, at any
    depth, have the same prefix form exactly if they are the same up to their indices; so have two
    conditions and two expressions. What binds tighter, what comes first, parentheses, signs and
    empty statements all show. -/
theorem sexpr_determines {u v : String} {ts us : List Token} {p q : Program}
    (hscan : Lexer.scan u = .ok ts) (hread : ofTokens ts = .ok p)
    (hscan' : Lexer.scan v = .ok us) (hread' : ofTokens us = .ok q) :
    (∀ s t : Statement, .statement s ∈ p.fragments → .statement t ∈ q.fragments →
      (s.sexpr = t.sexpr ↔ s.unplaced = t.unplaced)) ∧
    (∀ e e' : Expr, .expr e ∈ p.fragments → .expr e' ∈ q.fragments →
      (e.sexpr = e'.sexpr ↔ e.unplaced = e'.unplaced)) ∧
    (∀ c c' : Condition, .condition c ∈ p.fragments → .condition c' ∈ q.fragments →
      (c.sexpr = c'.sexpr ↔ c.unplaced = c'.unplaced)) := by
  have hp {f : Fragment} (hf : f ∈ p.fragments) : f.Legible := legible_of_scan hscan hread hf
  have hq {f : Fragment} (hf : f ∈ q.fragments) : f.Legible := legible_of_scan hscan' hread' hf
  refine ⟨?_, ?_, ?_⟩
  · intro s t hs ht
    exact Statement.sexpr_eq_iff (hp hs) (hq ht)
  · intro e e' he he'
    exact Expr.sexpr_eq_iff (hp he) (hq he')
  · intro c c' hc hc'
    exact Condition.sexpr_eq_iff (hp hc) (hq hc')

/-- The program `x := 7 - 2 - x .` with the indices of its names and numbers. -/
def difference (target seven two x : Nat) : Program :=
  let terms : Terms := .join (.single (.single (.number ⟨7, seven⟩))) .sub
    (.single (.number ⟨2, two⟩))
  ⟨.mk [] [] [] (.assign ⟨"x", target⟩ (.mk none (.join terms .sub (.single (.ident ⟨"x", x⟩)))))⟩

/-- The program `x := 7 - (2 - x) .` with the indices of its names and numbers. -/
def regrouped (target seven two x : Nat) : Program :=
  let terms : Terms := .join (.single (.single (.number ⟨2, two⟩))) .sub
    (.single (.ident ⟨"x", x⟩))
  ⟨.mk [] [] [] (.assign ⟨"x", target⟩ (.mk none (.join (.single (.single (.number ⟨7, seven⟩)))
    .sub (.single (.group (.mk none terms))))))⟩

/-- Blanks and leading zeros do not show in the prefix form of `difference`; parentheses do. -/
theorem difference_determined :
    (difference 0 5 9 13).block.body.sexpr = (difference 0 3 6 8).block.body.sexpr ∧
      (difference 0 5 9 13).block.body.sexpr ≠ (regrouped 0 5 10 14).block.body.sexpr := by
  obtain ⟨ts, hscan, hread⟩ : ∃ ts, Lexer.scan "x := 7 - 2 - x ." = .ok ts ∧
      ofTokens ts = .ok (difference 0 5 9 13) := ⟨_, by cbv, by cbv⟩
  obtain ⟨us, hscan', hread'⟩ : ∃ us, Lexer.scan "x:=07-2-x." = .ok us ∧
      ofTokens us = .ok (difference 0 3 6 8) := ⟨_, by cbv, by cbv⟩
  obtain ⟨vs, hscan'', hread''⟩ : ∃ vs, Lexer.scan "x := 7 - (2 - x)." = .ok vs ∧
      ofTokens vs = .ok (regrouped 0 5 10 14) := ⟨_, by cbv, by cbv⟩
  have hsame := (sexpr_determines hscan hread hscan' hread').1 _ _ (List.mem_cons_self ..)
    (List.mem_cons_self ..)
  have hother := (sexpr_determines hscan hread hscan'' hread'').1 _ _ (List.mem_cons_self ..)
    (List.mem_cons_self ..)
  refine ⟨hsame.2 rfl, fun h => ?_⟩
  have htrees := hother.1 h
  simp [Statement.unplaced, Expr.unplaced, Terms.unplaced, Term.unplaced, Factor.unplaced] at htrees

end Program

end PL0
