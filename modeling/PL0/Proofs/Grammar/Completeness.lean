import PL0.Proofs.Grammar.Soundness

/-!
# `Grammar.Completeness` — whatever is written is read

The readers take what they can get: they go on while an operator or a comma follows, and leave a
statement empty that nothing starts. Where tokens write a phrase, this choice is the right one as
long as the token behind the phrase cannot belong to it (`Avoids`). `EndsTerm`, `EndsTerms` and
`EndsStatement` say so of the tokens left over, and the grammar lets nothing else follow.

A chain of terms is read with an accumulator, which holds what has been read of the chain. So the
lemma for chains speaks of a part of one: behind the tokens of `e` the reader goes on as if it had
read `e` so far (`outcome_terms_eq`, `outcome_term_eq`).

Main statement: `ofTokens_of_writtenBy`.
-/

namespace PL0.Grammar

open Terminal

variable {α : Type} {ts rest mid : List Token} {t : Token}

/-! ## What follows a phrase

Each of these conditions is about the first token left over, if there is one. They become weaker
from the inside out: what ends a statement ends a sum, and what ends a sum ends a product. -/

/-- The tokens do not start with one of these kinds. -/
def Avoids (ks : List Kind) (ts : List Token) : Prop := ∀ t ∈ ts.head?, t.kind ∉ ks

theorem Avoids.mono {js ks : List Kind} (h : Avoids ks ts) (hsub : ∀ k ∈ js, k ∈ ks) :
    Avoids js ts := fun t ht hk => h t ht (hsub t.kind hk)

/-- Of a token, its kind decides. -/
theorem avoids_cons {k : Kind} {ks : List Kind} (ht : t.kind = k) (hk : k ∉ ks) :
    Avoids ks (t :: rest) := by
  rintro u ⟨⟩
  rwa [ht]

/-- No factor can be joined to what stands in front of these tokens. -/
def EndsTerm (rest : List Token) : Prop := Avoids [.mark .star, .mark .slash] rest

/-- Neither a factor nor a term can be joined to what stands in front of these tokens. -/
def EndsTerms (rest : List Token) : Prop :=
  Avoids [.mark .plus, .mark .minus, .mark .star, .mark .slash] rest

/-- What follows a statement, which is also what follows a block. -/
def EndsStatement (rest : List Token) : Prop :=
  ∀ t ∈ rest.head?, t.kind ∈ [Kind.mark .semicolon, .keyword .endKw, .mark .dot]

/-- What ends a sum ends its last product. -/
theorem EndsTerms.endsTerm (h : EndsTerms rest) : EndsTerm rest := h.mono (by decide)

theorem endsStatement_cons {k : Kind} (ht : t.kind = k)
    (hk : k ∈ [Kind.mark .semicolon, .keyword .endKw, .mark .dot]) :
    EndsStatement (t :: rest) := by
  rintro u ⟨⟩
  rwa [ht]

/-- What follows a statement belongs to no other phrase that could go on. -/
theorem EndsStatement.avoids {ks : List Kind} (h : EndsStatement rest)
    (hks : ∀ k ∈ [Kind.mark .semicolon, .keyword .endKw, .mark .dot], k ∉ ks) :
    Avoids ks rest := fun t ht => hks t.kind (h t ht)

/-- What ends a statement ends the expression that it ends with. -/
theorem EndsStatement.endsTerms (h : EndsStatement rest) : EndsTerms rest := h.avoids (by decide)

/-- What ends a product is no operator of products, and likewise for sums. -/
theorem mulOp?_eq_none (h : EndsTerm (t :: rest)) : mulOp? t = none := by
  cases hop : mulOp? t with
  | none => rfl
  | some op =>
    have hk := h t rfl
    rw [mulOp?_eq_some_iff.1 hop] at hk
    cases op <;> exact absurd (by decide) hk

theorem addOp?_eq_none (h : EndsTerms (t :: rest)) : addOp? t = none := by
  cases hop : addOp? t with
  | none => rfl
  | some op =>
    have hk := h t rfl
    rw [addOp?_eq_some_iff.1 hop] at hk
    cases op <;> exact absurd (by decide) hk

/-- A chain stops there. -/
theorem moreFactors_stop (left : Term) (h : EndsTerm rest) :
    outcomeOpt (moreFactors left rest) = .ok (left, rest) := by
  cases rest with
  | nil => exact outcome_moreFactors_nil left
  | cons t rest => rw [outcome_moreFactors_cons, mulOp?_eq_none h]

theorem moreTerms_stop (left : Terms) (h : EndsTerms rest) :
    outcomeOpt (moreTerms left rest) = .ok (left, rest) := by
  cases rest with
  | nil => exact outcome_moreTerms_nil left
  | cons t rest => rw [outcome_moreTerms_cons, addOp?_eq_none h]

/-! ## What a phrase starts with

A section of declarations that is missing is told by the word in front being another one. So it has
to be known with which words the phrases behind it can start. -/

/-- A factor, and so a product or a sum, starts with a parenthesis, a name or a number. -/
theorem Factor.exists_first (f : Factor) : ∃ s ss, f.terminals = s :: ss ∧
    s.kind ∈ [Kind.mark .leftParen, .identifier, .number] := by
  cases f with
  | ident x => exact ⟨_, _, rfl, by simp [Terminal.kind]⟩
  | number n => exact ⟨_, _, rfl, by simp [Terminal.kind]⟩
  | group e => exact ⟨_, _, rfl, by simp [Terminal.kind]⟩

theorem Term.exists_first (t : Term) : ∃ s ss, t.terminals = s :: ss ∧
    s.kind ∈ [Kind.mark .leftParen, .identifier, .number] := by
  cases t with
  | single f => exact Factor.exists_first f
  | join left op right =>
    obtain ⟨s, ss, hs, hk⟩ := Term.exists_first left
    exact ⟨s, _, by rw [Term.terminals, hs]; rfl, hk⟩

theorem Terms.exists_first (e : Terms) : ∃ s ss, e.terminals = s :: ss ∧
    s.kind ∈ [Kind.mark .leftParen, .identifier, .number] := by
  cases e with
  | single t => exact Term.exists_first t
  | join left op right =>
    obtain ⟨s, ss, hs, hk⟩ := Terms.exists_first left
    exact ⟨s, _, by rw [Terms.terminals, hs]; rfl, hk⟩

/-- An expression does not start with a reserved word. -/
theorem Expr.exists_first (e : Expr) : ∃ s ss, e.terminals = s :: ss ∧
    ∀ k, s.kind ≠ .keyword k := by
  obtain ⟨sign, ts⟩ := e
  cases sign with
  | some σ => exact ⟨_, _, rfl, fun k h => by cases h⟩
  | none =>
    obtain ⟨s, ss, hs, hk⟩ := Terms.exists_first ts
    refine ⟨s, ss, hs, fun k h => ?_⟩
    rw [h] at hk
    simp at hk

/-- The words in front of the sections of a block. -/
def sectionWords : List Kind := [.keyword .constKw, .keyword .varKw, .keyword .procedureKw]

/-- A statement does not start with a word that introduces declarations. -/
theorem avoids_of_spells_statement {s : Statement} (h : Spells s.terminals ts rest)
    (hend : EndsStatement rest) : Avoids sectionWords ts := by
  have hcons {σ : Terminal} {ss : List Terminal} (h : Spells (σ :: ss) ts rest)
      (hσ : σ.kind ∉ sectionWords) : Avoids sectionWords ts := by
    obtain ⟨t, ts', rfl, ht, -⟩ := spells_cons.1 h
    exact avoids_cons ht.1 hσ
  cases s with
  | empty =>
    cases spells_nil.1 h
    exact hend.avoids (by decide)
  | block body => exact hcons h (by decide)
  | read targets => exact hcons h (by decide)
  | write values => exact hcons h (by decide)
  | call x => exact hcons h (by decide)
  | whileDo c body => exact hcons h (by decide)
  | assign x e => exact hcons h (by simp [Terminal.kind, sectionWords])
  | ifThen c body => exact hcons h (by decide)

/-- Procedures start with their word, or with what follows them. -/
theorem avoids_of_spells_procedures {ps : List Procedure}
    (h : Spells (Procedure.terminalsOf ps) ts rest) (hrest : Avoids sectionWords rest) :
    Avoids [.keyword .constKw, .keyword .varKw] ts := by
  cases ps with
  | nil =>
    cases spells_nil.1 h
    exact hrest.mono (by decide)
  | cons p ps =>
    obtain ⟨x, b⟩ := p
    obtain ⟨t, ts', rfl, ht, -⟩ := spells_cons.1 h
    exact avoids_cons (matches_keyword.1 ht) (by decide)

/-! ## Expressions

The recursion follows the tree, not the tokens. Sums and products are nested to the left, while the
readers go from left to right; the accumulating readers bridge this, since behind the tokens of a
left operand they go on with this operand read so far. -/

/-- A result taken apart and put together again. -/
theorem bind_eta (x : Except SyntaxError (α × List Token)) :
    (do
      let (a, rest) ← x
      return (a, rest)) = x := by
  cases x <;> rfl

mutual

/-- **An expression that is written is read.** A sum without a sign does not start like one, so no
    sign is taken. -/
theorem expr_eq_ok (e : Expr) {ts rest : List Token} (h : Spells e.terminals ts rest)
    (hend : EndsTerms rest) : outcome (expr ts) = .ok (e, rest) := by
  obtain ⟨sign, us⟩ := e
  cases sign with
  | none =>
    obtain ⟨s, ss, hs, hk⟩ := Terms.exists_first us
    have hus : outcome (terms ts) = .ok (us, rest) := by
      rw [outcome_terms_eq us h hend.endsTerm, moreTerms_stop us hend]
    have hfirst : Spells us.terminals ts rest := h
    rw [hs] at hfirst
    obtain ⟨t, ts', rfl, ht, -⟩ := spells_cons.1 hfirst
    have hsign : sign? t = none := by
      cases hσ : sign? t with
      | none => rfl
      | some σ =>
        rw [← ht.1, sign?_eq_some_iff.1 hσ] at hk
        cases σ <;> exact absurd hk (by decide)
    rw [outcome_expr_cons, hsign]
    simp [hus, pure, Except.pure, bind, Except.bind]
  | some σ =>
    obtain ⟨t, ts', rfl, ht, hus⟩ := spells_cons.1 h
    have hsign : sign? t = some σ := sign?_eq_some_iff.2 (matches_mark.1 ht)
    have hus : outcome (terms ts') = .ok (us, rest) := by
      rw [outcome_terms_eq us hus hend.endsTerm, moreTerms_stop us hend]
    rw [outcome_expr_cons, hsign]
    simp [hus, pure, Except.pure, bind, Except.bind]

/-- Behind the tokens of `e` a chain goes on with `e` read so far. -/
theorem outcome_terms_eq (e : Terms) {ts rest : List Token} (h : Spells e.terminals ts rest)
    (hend : EndsTerm rest) : outcome (terms ts) = outcomeOpt (moreTerms e rest) := by
  cases e with
  | single t =>
    have ht : outcome (term ts) = .ok (t, rest) := by
      rw [outcome_term_eq t h, moreFactors_stop t hend]
    rw [outcome_terms, ht]
    exact bind_eta _
  | join left op right =>
    obtain ⟨mid, hleft, hmid⟩ := spells_append.1 h
    obtain ⟨t, mid, rfl, ht, hright⟩ := spells_cons.1 hmid
    have hk := matches_mark.1 ht
    -- The left operand ends in front of an operator of sums, which no product goes on with.
    have hop : EndsTerm (t :: mid) := avoids_cons hk (by cases op <;> decide)
    have hr : outcome (term mid) = .ok (right, rest) := by
      rw [outcome_term_eq right hright, moreFactors_stop right hend]
    rw [outcome_terms_eq left hleft hop, outcome_moreTerms_cons, addOp?_eq_some_iff.2 hk, hr]
    exact bind_eta _

/-- Behind the tokens of `t` a chain goes on with `t` read so far. -/
theorem outcome_term_eq (t : Term) {ts rest : List Token} (h : Spells t.terminals ts rest) :
    outcome (term ts) = outcomeOpt (moreFactors t rest) := by
  cases t with
  | single f =>
    rw [outcome_term, factor_eq_ok f h]
    exact bind_eta _
  | join left op right =>
    obtain ⟨mid, hleft, hmid⟩ := spells_append.1 h
    obtain ⟨u, mid, rfl, hu, hright⟩ := spells_cons.1 hmid
    have hk := matches_mark.1 hu
    rw [outcome_term_eq left hleft, outcome_moreFactors_cons, mulOp?_eq_some_iff.2 hk,
      factor_eq_ok right hright]
    exact bind_eta _

/-- A factor needs nothing of what follows, since its last token closes it. -/
theorem factor_eq_ok (f : Factor) {ts rest : List Token} (h : Spells f.terminals ts rest) :
    outcome (factor ts) = .ok (f, rest) := by
  cases f with
  | ident x =>
    obtain ⟨t, ts', rfl, ht, -⟩ := spells_cons.1 h
    rw [outcome_factor_cons, ht.1]
    exact andThen_eq_ok_iff.2 ⟨x, rest, ident_eq_ok_iff.2 h, rfl⟩
  | number n =>
    obtain ⟨t, ts', rfl, ht, -⟩ := spells_cons.1 h
    rw [outcome_factor_cons, ht.1]
    exact andThen_eq_ok_iff.2 ⟨n, rest, numeral_eq_ok_iff.2 h, rfl⟩
  | group e =>
    obtain ⟨t, ts', rfl, ht, hmid⟩ := spells_cons.1 h
    obtain ⟨mid, he, hclose⟩ := spells_append.1 hmid
    obtain ⟨u, mid, rfl, hu, hrest⟩ := spells_cons.1 hclose
    cases spells_nil.1 hrest
    have hk := matches_mark.1 hu
    rw [outcome_factor_cons, matches_mark.1 ht]
    refine andThen_eq_ok_iff.2 ⟨e, _, expr_eq_ok e he (avoids_cons hk (by decide)), ?_⟩
    exact expect_bind_eq_ok_iff.2 ⟨u, _, rfl, hk, rfl⟩

end

/-! ## Conditions -/

/-- A relation ends the expression in front of it. -/
theorem condition_eq_ok (c : Condition) (h : Spells c.terminals ts rest) (hend : EndsTerms rest) :
    outcome (condition ts) = .ok (c, rest) := by
  cases c with
  | odd e =>
    obtain ⟨t, ts', rfl, ht, he⟩ := spells_cons.1 h
    rw [outcome_condition_cons, if_pos (matches_keyword.1 ht)]
    exact andThen_eq_ok_iff.2 ⟨e, rest, expr_eq_ok e he hend, rfl⟩
  | compare left r right =>
    obtain ⟨mid, hleft, hmid⟩ := spells_append.1 h
    obtain ⟨t, mid, rfl, ht, hright⟩ := spells_cons.1 hmid
    have hk := matches_mark.1 ht
    have hr : EndsTerms (t :: mid) := avoids_cons hk (by cases r <;> decide)
    have hcompare : outcome (comparison ts) = .ok (.compare left r right, rest) := by
      rw [outcome_comparison]
      refine andThen_eq_ok_iff.2 ⟨left, _, expr_eq_ok left hleft hr, ?_⟩
      refine andThen_eq_ok_iff.2 ⟨r, mid, relation_eq_ok_iff.2 (.single ht), ?_⟩
      exact andThen_eq_ok_iff.2 ⟨right, rest, expr_eq_ok right hright hend, rfl⟩
    -- The left operand does not start with `odd`, so this is a comparison.
    obtain ⟨s, ss, hs, hfirst⟩ := Expr.exists_first left
    rw [hs] at hleft
    obtain ⟨u, ts', rfl, hu, -⟩ := spells_cons.1 hleft
    have hodd : ¬ u.kind = .keyword .oddKw := by
      rw [hu.1]
      exact hfirst _
    rw [outcome_condition_cons, if_neg hodd]
    exact hcompare

/-! ## Lists

What follows a list is known: the parenthesis or the semicolon that closes it. A comma would make
the list go on, so it is excluded, as is what would make the last phrase go on. -/

section
variable {item : (ts : List Token) → Reading α ts} {terms : α → List Terminal} {xs : List α}

/-- A list that is written is read, up to the token `t` behind it. -/
theorem commaSeparated_eq_ok
    (hitem : ∀ {x ts rest}, Spells (terms x) ts rest → EndsTerms rest →
      outcome (item ts) = .ok (x, rest))
    {k : Kind} (ht : t.kind = k)
    (hk : k ∉ [Kind.mark .plus, .mark .minus, .mark .star, .mark .slash, .mark .comma])
    (hne : xs ≠ []) (h : Spells (listed terms xs) ts (t :: rest)) :
    outcome (commaSeparated item ts) = .ok (xs, t :: rest) := by
  have hend : EndsTerms (t :: rest) := by
    refine avoids_cons ht ?_
    simp only [List.mem_cons] at hk ⊢
    tauto
  have hcomma : ¬ t.kind = .mark .comma := by
    rw [ht]
    rintro rfl
    exact hk (by decide)
  induction xs generalizing ts with
  | nil => exact absurd rfl hne
  | cons x xs ih =>
    rw [outcome_commaSeparated]
    cases xs with
    | nil =>
      have hx : Spells (terms x) ts (t :: rest) := by simpa [listed] using h
      refine andThen_eq_ok_iff.2 ⟨x, _, hitem hx hend, ?_⟩
      dsimp only
      rw [if_neg hcomma]
      rfl
    | cons y ys =>
      rw [listed_cons x (by simp)] at h
      obtain ⟨mid, hx, hmid⟩ := spells_append.1 h
      obtain ⟨u, mid, rfl, hu, hys⟩ := spells_cons.1 hmid
      have huk := matches_mark.1 hu
      refine andThen_eq_ok_iff.2 ⟨x, _, hitem hx (avoids_cons huk (by decide)), ?_⟩
      dsimp only
      rw [if_pos huk]
      exact andThen_eq_ok_iff.2 ⟨y :: ys, _, ih (by simp) hys, rfl⟩

/-- The closing parenthesis is what follows the list. -/
theorem parenthesized_eq_ok
    (hitem : ∀ {x ts rest}, Spells (terms x) ts rest → EndsTerms rest →
      outcome (item ts) = .ok (x, rest))
    (hne : xs ≠ []) (h : Spells (grouped terms xs) ts rest) :
    outcome (parenthesized item ts) = .ok (xs, rest) := by
  obtain ⟨t, ts', rfl, ht, hmid⟩ := spells_cons.1 h
  obtain ⟨mid, hxs, hclose⟩ := spells_append.1 hmid
  obtain ⟨u, mid, rfl, hu, hrest⟩ := spells_cons.1 hclose
  cases spells_nil.1 hrest
  have hk := matches_mark.1 hu
  rw [outcome_parenthesized]
  refine expect_bind_eq_ok_iff.2 ⟨t, ts', rfl, matches_mark.1 ht, ?_⟩
  refine andThen_eq_ok_iff.2 ⟨xs, _, commaSeparated_eq_ok hitem hk (by decide) hne hxs, ?_⟩
  exact expect_bind_eq_ok_iff.2 ⟨u, _, rfl, hk, rfl⟩

/-- A section that is missing is recognised by what follows not starting with its word. -/
theorem declarations_eq_ok
    (hitem : ∀ {x ts rest}, Spells (terms x) ts rest → EndsTerms rest →
      outcome (item ts) = .ok (x, rest))
    {k : Keyword} (h : Spells (declared k terms xs) ts rest)
    (hend : Avoids [.keyword k] rest) :
    outcomeOpt (declarations k item ts) = .ok (xs, rest) := by
  cases xs with
  | nil =>
    cases spells_nil.1 h
    cases ts with
    | nil => exact outcome_declarations_nil k item
    | cons t ts => rw [outcome_declarations_cons, if_neg (by simpa using hend t rfl)]
  | cons x xs =>
    obtain ⟨t, ts', rfl, ht, hmid⟩ := spells_cons.1 h
    obtain ⟨mid, hxs, hclose⟩ := spells_append.1 hmid
    obtain ⟨u, mid, rfl, hu, hrest⟩ := spells_cons.1 hclose
    cases spells_nil.1 hrest
    have hk := matches_mark.1 hu
    rw [outcome_declarations_cons, if_pos (matches_keyword.1 ht)]
    refine andThen_eq_ok_iff.2 ⟨x :: xs, _, ?_, expect_bind_eq_ok_iff.2 ⟨u, _, rfl, hk, rfl⟩⟩
    exact commaSeparated_eq_ok hitem hk (by decide) (by simp) hxs

/-- Declarations start with their word, or with what follows them. -/
theorem avoids_of_spells_declared {k : Keyword} {ks : List Kind}
    (h : Spells (declared k terms xs) ts rest) (hk : .keyword k ∉ ks) (hrest : Avoids ks rest) :
    Avoids ks ts := by
  cases xs with
  | nil =>
    cases spells_nil.1 h
    exact hrest
  | cons x xs =>
    obtain ⟨t, ts', rfl, ht, -⟩ := spells_cons.1 h
    exact avoids_cons (matches_keyword.1 ht) hk

end

/-! ## Statements

Among statements too, what follows decides that nothing more is read. A statement that ends with
another one, as a loop does, passes the condition on to it. -/

/-- A condition, the word `k` and a statement, which are the rest of a loop or of an `if`. -/
theorem guarded_eq_ok {k : Keyword} {f : Condition → Statement → Statement} {c : Condition}
    {ss : List Terminal} {body : Statement}
    (h : Spells (c.terminals ++ .keyword k :: ss) ts rest) :
    ∃ mid, Spells ss mid rest ∧ (outcomeOpt (statement mid) = .ok (body, rest) → (do
      let (c, rest') ← outcome (condition ts)
      let (_, rest'') ← outcome (expect (.keyword k) rest')
      let (body, rest''') ← outcomeOpt (statement rest'')
      return (f c body, rest''')) = .ok (f c body, rest)) := by
  obtain ⟨mid, hc, hmid⟩ := spells_append.1 h
  obtain ⟨u, mid, rfl, hu, hss⟩ := spells_cons.1 hmid
  have hk := matches_keyword.1 hu
  refine ⟨mid, hss, fun hbody => ?_⟩
  refine andThen_eq_ok_iff.2 ⟨c, _, condition_eq_ok c hc (avoids_cons hk (by simp)), ?_⟩
  refine expect_bind_eq_ok_iff.2 ⟨u, mid, rfl, hk, ?_⟩
  exact andThen_eq_ok_iff.2 ⟨body, rest, hbody, rfl⟩

mutual

/-- **A statement that is written is read**, provided that it is filled. -/
theorem statement_eq_ok (s : Statement) {ts rest : List Token} (hs : s.Filled)
    (h : Spells s.terminals ts rest) (hend : EndsStatement rest) :
    outcomeOpt (statement ts) = .ok (s, rest) := by
  cases s with
  | empty =>
    cases spells_nil.1 h
    cases ts with
    | nil => exact outcome_statement_nil
    | cons t ts =>
      -- No statement starts with a semicolon, `end` or the dot, so the reader leaves it empty.
      have hk := hend t rfl
      simp only [List.mem_cons, List.not_mem_nil, or_false] at hk
      rw [outcome_statement_cons]
      rcases hk with hk | hk | hk <;> rw [hk]
  | block body =>
    obtain ⟨t, ts', rfl, ht, hmid⟩ := spells_cons.1 h
    obtain ⟨mid, hbody, hclose⟩ := spells_append.1 hmid
    obtain ⟨u, mid, rfl, hu, hrest⟩ := spells_cons.1 hclose
    cases spells_nil.1 hrest
    have hk := matches_keyword.1 hu
    rw [outcome_statement_cons, matches_keyword.1 ht]
    refine andThen_eq_ok_iff.2 ⟨body, _, statements_eq_ok body hs.1 hs.2 hbody hk, ?_⟩
    exact expect_bind_eq_ok_iff.2 ⟨u, _, rfl, hk, rfl⟩
  | read targets =>
    obtain ⟨t, ts', rfl, ht, hmid⟩ := spells_cons.1 h
    rw [outcome_statement_cons, matches_keyword.1 ht]
    refine andThen_eq_ok_iff.2 ⟨targets, rest, ?_, rfl⟩
    exact parenthesized_eq_ok (fun hx _ => ident_eq_ok_iff.2 hx) hs hmid
  | write values =>
    obtain ⟨t, ts', rfl, ht, hmid⟩ := spells_cons.1 h
    rw [outcome_statement_cons, matches_keyword.1 ht]
    refine andThen_eq_ok_iff.2 ⟨values, rest, ?_, rfl⟩
    exact parenthesized_eq_ok (fun {e _ _} he hend => expr_eq_ok e he hend) hs hmid
  | call x =>
    obtain ⟨t, ts', rfl, ht, hx⟩ := spells_cons.1 h
    rw [outcome_statement_cons, matches_keyword.1 ht]
    exact andThen_eq_ok_iff.2 ⟨x, rest, ident_eq_ok_iff.2 hx, rfl⟩
  | whileDo c body =>
    obtain ⟨t, ts', rfl, ht, hmid⟩ := spells_cons.1 h
    obtain ⟨mid, hbody, hguarded⟩ := guarded_eq_ok hmid
    rw [outcome_statement_cons, matches_keyword.1 ht]
    exact hguarded (statement_eq_ok body hs hbody hend)
  | assign x e =>
    obtain ⟨t, ts', rfl, ht, hmid⟩ := spells_cons.1 h
    obtain ⟨u, mid, rfl, hu, he⟩ := spells_cons.1 hmid
    obtain ⟨hk, rfl⟩ := matches_name.1 ht
    rw [outcome_statement_cons, hk]
    dsimp only
    rw [if_pos (matches_mark.1 hu), outcome_assignment,
      expr_eq_ok e he hend.endsTerms]
    rfl
  | ifThen c body =>
    obtain ⟨t, ts', rfl, ht, hmid⟩ := spells_cons.1 h
    obtain ⟨mid, hbody, hguarded⟩ := guarded_eq_ok hmid
    rw [outcome_statement_cons, matches_keyword.1 ht]
    exact hguarded (statement_eq_ok body hs hbody hend)

/-- The statements of a `begin`, up to its `end`. -/
theorem statements_eq_ok (ss : List Statement) {ts rest : List Token} {u : Token} (hne : ss ≠ [])
    (hs : Statement.FilledAll ss) (h : Spells (Statement.terminalsOf ss) ts (u :: rest))
    (hu : u.kind = .keyword .endKw) : outcomeOpt (statements ts) = .ok (ss, u :: rest) := by
  cases ss with
  | nil => exact absurd rfl hne
  | cons s ss =>
    rw [outcome_statements]
    cases ss with
    | nil =>
      have hspells : Spells s.terminals ts (u :: rest) := by
        simpa [Statement.terminalsOf, Statement.terminalsBehind] using h
      refine andThen_eq_ok_iff.2
        ⟨s, _, statement_eq_ok s hs.1 hspells (endsStatement_cons hu (by decide)), ?_⟩
      have hsemicolon : ¬ u.kind = .mark .semicolon := by simp [hu]
      dsimp only
      rw [if_neg hsemicolon]
      rfl
    | cons s' ss =>
      rw [terminalsOf_cons s (by simp)] at h
      obtain ⟨mid, hspells, hmid⟩ := spells_append.1 h
      obtain ⟨t, mid, rfl, ht, hss⟩ := spells_cons.1 hmid
      have hk := matches_mark.1 ht
      refine andThen_eq_ok_iff.2
        ⟨s, _, statement_eq_ok s hs.1 hspells (endsStatement_cons hk (by decide)), ?_⟩
      dsimp only
      rw [if_pos hk]
      refine andThen_eq_ok_iff.2 ⟨s' :: ss, _, ?_, rfl⟩
      exact statements_eq_ok (s' :: ss) (by simp) hs.2 hss hu

end

/-! ## Blocks

The sections of a block come in a fixed order, and each may be missing. A block is followed by a
semicolon or by the dot, as its statement is. -/

mutual

/-- **A block that is written is read.** -/
theorem block_eq_ok (b : Block) {ts rest : List Token} (hb : b.Filled)
    (h : Spells b.terminals ts rest) (hend : EndsStatement rest) :
    outcomeOpt (block ts) = .ok (b, rest) := by
  obtain ⟨consts, vars, ps, body⟩ := b
  obtain ⟨mid, hconsts, h⟩ := spells_append.1 h
  obtain ⟨mid', hvars, h⟩ := spells_append.1 h
  obtain ⟨mid'', hps, hbody⟩ := spells_append.1 h
  -- Each section is followed by the later ones or by the body, and so by none of its own words.
  have hbodyFirst := avoids_of_spells_statement hbody hend
  have hpsFirst := avoids_of_spells_procedures hps hbodyFirst
  have hvarsFirst : Avoids [.keyword .constKw] mid :=
    avoids_of_spells_declared hvars (by decide) (hpsFirst.mono (by decide))
  rw [outcome_block]
  refine andThen_eq_ok_iff.2 ⟨consts, mid, ?_, ?_⟩
  · exact declarations_eq_ok (fun hd _ => constDecl_eq_ok_iff.2 hd) hconsts hvarsFirst
  refine andThen_eq_ok_iff.2 ⟨vars, mid', ?_, ?_⟩
  · exact declarations_eq_ok (fun hx _ => ident_eq_ok_iff.2 hx) hvars (hpsFirst.mono (by decide))
  refine andThen_eq_ok_iff.2 ⟨ps, mid'', ?_, ?_⟩
  · exact procedures_eq_ok ps hb.1 hps (hbodyFirst.mono (by decide))
  exact andThen_eq_ok_iff.2 ⟨body, rest, statement_eq_ok body hb.2 hbody hend, rfl⟩

/-- Procedures are read as long as their word is in front, and then no longer. -/
theorem procedures_eq_ok (ps : List Procedure) {ts rest : List Token} (hps : Procedure.FilledAll ps)
    (h : Spells (Procedure.terminalsOf ps) ts rest)
    (hend : Avoids [.keyword .procedureKw] rest) :
    outcomeOpt (procedures ts) = .ok (ps, rest) := by
  cases ps with
  | nil =>
    cases spells_nil.1 h
    cases ts with
    | nil => exact outcome_procedures_nil
    | cons t ts => rw [outcome_procedures_cons, if_neg (by simpa using hend t rfl)]
  | cons p ps =>
    obtain ⟨x, b⟩ := p
    obtain ⟨mid, hp, hrest⟩ := spells_append.1 h
    obtain ⟨t, ts', rfl, ht, hp⟩ := spells_cons.1 hp
    have hp : Spells ([.name x, .mark .semicolon] ++ (b.terminals ++ [.mark .semicolon])) ts' mid :=
      hp
    obtain ⟨mid', hname, hp⟩ := spells_append.1 hp
    obtain ⟨mid'', hb, hclose⟩ := spells_append.1 hp
    obtain ⟨u, mid'', rfl, hu, hmid⟩ := spells_cons.1 hclose
    cases spells_nil.1 hmid
    have hk := matches_mark.1 hu
    rw [outcome_procedures_cons, if_pos (matches_keyword.1 ht)]
    refine andThen_eq_ok_iff.2 ⟨x, mid', procedureName_eq_ok_iff.2 hname, ?_⟩
    refine andThen_eq_ok_iff.2
      ⟨b, _, block_eq_ok b hps.1 hb (endsStatement_cons hk (by decide)), ?_⟩
    refine expect_bind_eq_ok_iff.2 ⟨u, _, rfl, hk, ?_⟩
    exact andThen_eq_ok_iff.2 ⟨ps, rest, procedures_eq_ok ps hps.2 hrest hend, rfl⟩

end

/-- **What is written is read**, up to the final dot. -/
theorem ofTokens_of_writtenBy {p : Program} (hp : p.block.Filled) (h : p.WrittenBy ts) :
    Program.ofTokens ts = .ok p := by
  obtain ⟨b⟩ := p
  obtain ⟨mid, hb, hdot⟩ := spells_append.1 (spells_all_iff.2 h)
  obtain ⟨t, mid, rfl, ht, hrest⟩ := spells_cons.1 hdot
  cases spells_nil.1 hrest
  have hk := matches_mark.1 ht
  rw [ofTokens_eq]
  refine andThen_eq_ok_iff.2 ⟨b, _, block_eq_ok b hp hb (endsStatement_cons hk (by decide)), ?_⟩
  exact expect_bind_eq_ok_iff.2 ⟨t, [], rfl, hk, rfl⟩

end PL0.Grammar
