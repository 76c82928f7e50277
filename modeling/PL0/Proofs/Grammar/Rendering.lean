import Mathlib.Data.List.Forall2
import PL0.Grammar
import PL0.Proofs.Numeral

/-!
# `Grammar.Rendering` — the tokens that write a tree

The grammar read the other way round: `Program.terminals` lists what the rules demand of the tokens
of a tree, one terminal for each token. A mark or a reserved word demands a kind of token and nothing
of its text; a name demands an identifier with its text and its index, a number a numeral of its
value.

Not every tree is written by tokens: what stands between `begin` and `end` and what is read or
written are lists of at least one element, and numbers are words (`Program.WellFormed`).
`Program.tokens` are tokens that write such a tree.

`Spells ss ts rest` says that tokens for the terminals `ss` stand in front of `rest` in `ts`. In
this form `Grammar.Soundness` and `Grammar.Completeness` compare the readers with the grammar.
-/

namespace PL0

/-! ## Terminals -/

/-- What a rule of the grammar demands of one token. -/
inductive Terminal where
  | mark (m : Mark)
  | keyword (k : Keyword)
  | name (x : Ident)
  | number (n : Numeral)
deriving DecidableEq

namespace Terminal

/-- The kind of token demanded. -/
def kind : Terminal → Kind
  | mark m => .mark m
  | keyword k => .keyword k
  | name _ => .identifier
  | number _ => .number

/-- **The token is what is demanded.** Its text counts for names and numbers only; the text of a
    number is any signed numeral that denotes a word. -/
def Matches (s : Terminal) (t : Token) : Prop :=
  t.kind = s.kind ∧
    match s with
    | mark _ => True
    | keyword _ => True
    | name x => t.text = x.name ∧ t.index = x.index
    | number n => (Decimal.Denotes t.text.toList n.value ∧ Word.InRange n.value) ∧
        t.index = n.index

/-- A token that is what is demanded. -/
def token : Terminal → Token
  | mark m => ⟨.mark m, 0, m.spelling⟩
  | keyword k => ⟨.keyword k, 0, k.spelling⟩
  | name x => ⟨.identifier, x.index, x.name⟩
  | number n => ⟨.number, n.index, toString n.value⟩

end Terminal

/-! ## The terminals of a tree

One function for each category, written like the rules of the grammar: what is repeated there is a
list here, and what may be missing is an empty one. Nothing but the tree determines the terminals,
so the grammar leaves no choice in how a tree is written, except for the texts of marks, words and
numbers. -/

/-- The marks that signs and operators are written with. -/
def Sign.mark : Sign → Mark
  | plus => .plus
  | minus => .minus

def AddOp.mark : AddOp → Mark
  | add => .plus
  | sub => .minus

def MulOp.mark : MulOp → Mark
  | mul => .star
  | div => .slash

def Relation.mark : Relation → Mark
  | eq => .equal
  | ne => .hash
  | lt => .less
  | le => .lessEqual
  | gt => .greater
  | ge => .greaterEqual

mutual

/-- An expression with or without a sign. -/
def Expr.terminals : Expr → List Terminal
  | .mk none ts => ts.terminals
  | .mk (some s) ts => .mark s.mark :: ts.terminals

/-- The operator of a sum stands between its operands. -/
def Terms.terminals : Terms → List Terminal
  | .single t => t.terminals
  | .join left op right => left.terminals ++ .mark op.mark :: right.terminals

def Term.terminals : Term → List Terminal
  | .single f => f.terminals
  | .join left op right => left.terminals ++ .mark op.mark :: right.terminals

/-- A group is written in parentheses. -/
def Factor.terminals : Factor → List Terminal
  | .ident x => [.name x]
  | .number n => [.number n]
  | .group e => .mark .leftParen :: (e.terminals ++ [.mark .rightParen])

end

/-- A word in front, or a relation in the middle. -/
def Condition.terminals : Condition → List Terminal
  | .odd e => .keyword .oddKw :: e.terminals
  | .compare left r right => left.terminals ++ .mark r.mark :: right.terminals

/-- Phrases with commas between them. -/
def Terminal.listed {α : Type} (item : α → List Terminal) : List α → List Terminal
  | [] => []
  | x :: xs => item x ++ xs.flatMap fun y => .mark .comma :: item y

/-- Phrases in parentheses. -/
def Terminal.grouped {α : Type} (item : α → List Terminal) (xs : List α) : List Terminal :=
  .mark .leftParen :: (listed item xs ++ [.mark .rightParen])

/-- A name is one terminal. -/
def Ident.terminals (x : Ident) : List Terminal := [.name x]

mutual

/-- Each statement starts with a word of its own, but for the assignment and the empty one. -/
def Statement.terminals : Statement → List Terminal
  | .empty => []
  | .block body => .keyword .beginKw :: (Statement.terminalsOf body ++ [.keyword .endKw])
  | .read targets => .keyword .readKw :: Terminal.grouped Ident.terminals targets
  | .write values => .keyword .writeKw :: Terminal.grouped Expr.terminals values
  | .call x => [.keyword .callKw, .name x]
  | .whileDo c body => .keyword .whileKw :: (c.terminals ++ .keyword .doKw :: body.terminals)
  | .assign x e => .name x :: .mark .assign :: e.terminals
  | .ifThen c body => .keyword .ifKw :: (c.terminals ++ .keyword .thenKw :: body.terminals)

/-- Statements with semicolons between them. -/
def Statement.terminalsOf : List Statement → List Terminal
  | [] => []
  | s :: ss => s.terminals ++ Statement.terminalsBehind ss

/-- Statements with a semicolon in front of each. -/
def Statement.terminalsBehind : List Statement → List Terminal
  | [] => []
  | s :: ss => .mark .semicolon :: (s.terminals ++ Statement.terminalsBehind ss)

end

/-- A name, `=` and a number. -/
def ConstDecl.terminals (d : ConstDecl) : List Terminal :=
  [.name d.name, .mark .equal, .number d.value]

/-- The declarations that the word `k` introduces; no token where there are none. -/
def Terminal.declared {α : Type} (k : Keyword) (item : α → List Terminal) :
    List α → List Terminal
  | [] => []
  | x :: xs => .keyword k :: (listed item (x :: xs) ++ [.mark .semicolon])

mutual

/-- Constants, variables, procedures and the statement, in this order. -/
def Block.terminals : Block → List Terminal
  | .mk consts vars ps body =>
    Terminal.declared .constKw ConstDecl.terminals consts ++
      (Terminal.declared .varKw Ident.terminals vars ++
        (Procedure.terminalsOf ps ++ body.terminals))

/-- Both the name and the block of a procedure are followed by a semicolon. -/
def Procedure.terminals : Procedure → List Terminal
  | .mk x b =>
    .keyword .procedureKw :: .name x :: .mark .semicolon :: (b.terminals ++ [.mark .semicolon])

def Procedure.terminalsOf : List Procedure → List Terminal
  | [] => []
  | p :: ps => p.terminals ++ Procedure.terminalsOf ps

end

/-- What the rules demand of the tokens of a program. -/
def Program.terminals (p : Program) : List Terminal := p.block.terminals ++ [.mark .dot]

/-! ## Well-formed trees

The types of trees allow of lists without elements and of numbers of any size. The grammar does not.
-/

mutual

/-- What the grammar repeats is there at least once. -/
def Statement.Filled : Statement → Prop
  | .empty => True
  | .block body => body ≠ [] ∧ Statement.FilledAll body
  | .read targets => targets ≠ []
  | .write values => values ≠ []
  | .call _ => True
  | .whileDo _ body => body.Filled
  | .assign _ _ => True
  | .ifThen _ body => body.Filled

def Statement.FilledAll : List Statement → Prop
  | [] => True
  | s :: ss => s.Filled ∧ Statement.FilledAll ss

end

mutual

/-- The statement of the block and those of its procedures are filled. -/
def Block.Filled : Block → Prop
  | .mk _ _ ps body => Procedure.FilledAll ps ∧ body.Filled

def Procedure.Filled : Procedure → Prop
  | .mk _ b => b.Filled

def Procedure.FilledAll : List Procedure → Prop
  | [] => True
  | p :: ps => p.Filled ∧ Procedure.FilledAll ps

end

/-- **A tree that tokens can write.** -/
structure Program.WellFormed (p : Program) : Prop where
  /-- Blocks, `read` and `write` have at least one element. -/
  filled : p.block.Filled
  /-- Numbers are words. -/
  words : ∀ n, .number n ∈ p.terminals → Word.InRange n.value

/-- **The tokens write the program:** each is what the rules demand in its place, and there are no
    others. -/
def Program.WrittenBy (p : Program) (ts : List Token) : Prop :=
  List.Forall₂ Terminal.Matches p.terminals ts

/-- Tokens that write the program. -/
def Program.tokens (p : Program) : List Token := p.terminals.map Terminal.token

/-- The tokens differ at most in what the grammar does not look at: the texts and indices of marks
    and reserved words. -/
def Token.Alike (t u : Token) : Prop :=
  t.kind = u.kind ∧ (t.kind = .identifier ∨ t.kind = .number → t.text = u.text ∧ t.index = u.index)

namespace Terminal

/-- What is demanded, read off the token. The last two hold of what the readers check. -/
theorem matches_mark {m : Mark} {t : Token} : (mark m).Matches t ↔ t.kind = .mark m := by
  simp [Matches, kind]

theorem matches_keyword {k : Keyword} {t : Token} :
    (keyword k).Matches t ↔ t.kind = .keyword k := by
  simp [Matches, kind]

theorem matches_name {x : Ident} {t : Token} :
    (name x).Matches t ↔ t.kind = .identifier ∧ x = ⟨t.text, t.index⟩ := by
  obtain ⟨n, i⟩ := x
  simp [Matches, kind, eq_comm]

theorem matches_number {n : Numeral} {t : Token} :
    (number n).Matches t ↔
      t.kind = .number ∧ Decimal.word? t.text = some n.value ∧ t.index = n.index := by
  simp [Matches, kind, Decimal.word?_eq_some_iff]

/-- A number that is written is a word. -/
theorem inRange_of_matches {n : Numeral} {t : Token} (h : (number n).Matches t) :
    Word.InRange n.value := h.2.1.2

/-- There is a token for every terminal, unless it is a number that no word holds. -/
theorem matches_token {s : Terminal} (h : ∀ n, s = .number n → Word.InRange n.value) :
    s.Matches s.token := by
  cases s with
  | mark m => exact ⟨rfl, trivial⟩
  | keyword k => exact ⟨rfl, trivial⟩
  | name x => exact ⟨rfl, rfl, rfl⟩
  | number n => exact ⟨rfl, ⟨Decimal.denotes_toString n.value, h n rfl⟩, rfl⟩

/-- Which terminal a token is depends only on what the grammar looks at. -/
theorem Matches.congr {s : Terminal} {t u : Token} (h : s.Matches t) (hu : t.Alike u) :
    s.Matches u := by
  obtain ⟨hkind, htext⟩ := hu
  cases s with
  | mark m => exact ⟨hkind.symm.trans h.1, trivial⟩
  | keyword k => exact ⟨hkind.symm.trans h.1, trivial⟩
  | name x =>
    obtain ⟨ht, hi⟩ := htext (.inl h.1)
    exact ⟨hkind.symm.trans h.1, ht ▸ h.2.1, hi ▸ h.2.2⟩
  | number n =>
    obtain ⟨ht, hi⟩ := htext (.inr h.1)
    exact ⟨hkind.symm.trans h.1, ht ▸ h.2.1, hi ▸ h.2.2⟩

end Terminal

theorem Token.Alike.symm {t u : Token} (h : t.Alike u) : u.Alike t := by
  refine ⟨h.1.symm, fun hk => ?_⟩
  rw [← h.1] at hk
  exact ⟨(h.2 hk).1.symm, (h.2 hk).2.symm⟩

/-! ## Terminals in front of a list of tokens

Readers answer a phrase and the tokens left over. `Spells` has the same form, so that it can be put
together along a sequence of readers. -/

namespace Grammar

variable {s : Terminal} {ss us : List Terminal} {ts rest mid : List Token}

/-- Tokens for the terminals `ss` stand in front of `rest` in `ts`. -/
def Spells (ss : List Terminal) (ts rest : List Token) : Prop :=
  ∃ front, List.Forall₂ Terminal.Matches ss front ∧ ts = front ++ rest

theorem spells_nil : Spells [] ts rest ↔ ts = rest := by
  simp [Spells]

theorem spells_cons : Spells (s :: ss) ts rest ↔
    ∃ t ts', ts = t :: ts' ∧ s.Matches t ∧ Spells ss ts' rest := by
  constructor
  · rintro ⟨front, hfront, rfl⟩
    cases hfront with
    | cons ht hs => exact ⟨_, _, rfl, ht, _, hs, rfl⟩
  · rintro ⟨t, _, rfl, ht, front, hs, rfl⟩
    exact ⟨t :: front, .cons ht hs, rfl⟩

/-- Pieces in turn, with the tokens `mid` left over by the first one. -/
theorem spells_append : Spells (ss ++ us) ts rest ↔
    ∃ mid, Spells ss ts mid ∧ Spells us mid rest := by
  induction ss generalizing ts with
  | nil => simp [spells_nil]
  | cons s ss ih =>
    simp only [List.cons_append, spells_cons, ih]
    constructor
    · rintro ⟨t, ts', rfl, ht, mid, hmid, hrest⟩
      exact ⟨mid, ⟨t, ts', rfl, ht, hmid⟩, hrest⟩
    · rintro ⟨mid, ⟨t, ts', rfl, ht, hmid⟩, hrest⟩
      exact ⟨t, ts', rfl, ht, mid, hmid, hrest⟩

theorem Spells.cons {t : Token} (ht : s.Matches t) (h : Spells ss ts rest) :
    Spells (s :: ss) (t :: ts) rest := spells_cons.2 ⟨t, ts, rfl, ht, h⟩

theorem Spells.append (h : Spells ss ts mid) (h' : Spells us mid rest) :
    Spells (ss ++ us) ts rest := spells_append.2 ⟨mid, h, h'⟩

theorem Spells.single {t : Token} (ht : s.Matches t) : Spells [s] (t :: rest) rest :=
  .cons ht (spells_nil.2 rfl)

/-- Nothing stands behind the terminals if they are all there is. -/
theorem spells_all_iff : Spells ss ts [] ↔ List.Forall₂ Terminal.Matches ss ts := by
  simp [Spells]

end Grammar

/-! ## Tokens that write a tree

Well-formed trees are the ones that can be written, and any two ways to write one are alike. -/

namespace Program

/-- A well-formed program is written by its own tokens. -/
theorem writtenBy_tokens {p : Program} (h : p.WellFormed) : p.WrittenBy p.tokens := by
  unfold WrittenBy tokens
  rw [List.forall₂_map_right_iff, List.forall₂_same]
  rintro s hs
  refine Terminal.matches_token ?_
  rintro n rfl
  exact h.words n hs

/-- Where tokens write a program, its numbers are words. -/
theorem words_of_writtenBy {p : Program} {ts : List Token} (h : p.WrittenBy ts) (n : Numeral)
    (hn : .number n ∈ p.terminals) : Word.InRange n.value := by
  unfold WrittenBy at h
  generalize p.terminals = ss at h hn
  induction h with
  | nil => cases hn
  | cons ht _ ih =>
    rcases List.mem_cons.1 hn with rfl | hn
    · exact Terminal.inRange_of_matches ht
    · exact ih hn

/-- What writes a program still does with other texts of marks and reserved words. -/
theorem WrittenBy.congr {p : Program} {ts us : List Token} (h : p.WrittenBy ts)
    (hu : List.Forall₂ Token.Alike ts us) : p.WrittenBy us := by
  unfold WrittenBy at *
  generalize p.terminals = ss at h ⊢
  induction h generalizing us with
  | nil =>
    cases hu
    exact .nil
  | cons ht _ ih =>
    cases hu with
    | cons hu hus => exact .cons (ht.congr hu) (ih hus)

end Program

end PL0
