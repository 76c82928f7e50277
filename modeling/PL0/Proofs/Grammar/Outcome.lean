import Mathlib.Logic.Basic
import PL0.Grammar

/-!
# `Grammar.Outcome` — the readers without their length proofs

The readers of `PL0.Grammar` answer a phrase together with the proof that tokens have been consumed.
The recursion needs that proof, but nothing that is said about a phrase does. `outcome` keeps the
phrase and the tokens behind it, or the error, and the equations of this module say what every
reader does in these terms. No other module opens a reader.

A reader that looks at the next token has two equations, one where no token is left (`_nil`) and one
with a token in front (`_cons`); a reader that is a sequence of others has one. A proof by induction
along the readers needs of the lengths only `length_lt_of_outcome` and `length_le_of_outcomeOpt`.
-/

namespace PL0.Grammar

variable {α β : Type} {ts rest : List Token}

/-- The phrase read and the tokens behind it. -/
def outcome (r : Reading α ts) : Except SyntaxError (α × List Token) :=
  (fun p => (p.value, p.rest)) <$> r

/-- The phrase read, possibly an empty one, and the tokens behind it. -/
def outcomeOpt (r : ReadingOpt α ts) : Except SyntaxError (α × List Token) :=
  (fun p => (p.value, p.rest)) <$> r

/-- A phrase that is not empty takes a token away. Inductions along the readers go down by this
    length. -/
theorem length_lt_of_outcome {r : Reading α ts} {x : α} (h : outcome r = .ok (x, rest)) :
    rest.length < ts.length := by
  cases r with
  | error e => cases h
  | ok p =>
    cases h
    exact p.shorter

/-- A phrase that may be empty puts no token back. -/
theorem length_le_of_outcomeOpt {r : ReadingOpt α ts} {x : α}
    (h : outcomeOpt r = .ok (x, rest)) : rest.length ≤ ts.length := by
  cases r with
  | error e => cases h
  | ok p =>
    cases h
    exact p.noLonger

/-- Two readers one behind the other succeed if the second does where the first has ended. -/
theorem andThen_eq_ok_iff {x : Except SyntaxError (α × List Token)}
    {f : α × List Token → Except SyntaxError β} {b : β} :
    x >>= f = .ok b ↔ ∃ a rest, x = .ok (a, rest) ∧ f (a, rest) = .ok b := by
  cases x with
  | error e => simp [bind, Except.bind]
  | ok p =>
    constructor
    · exact fun h => ⟨p.1, p.2, rfl, h⟩
    · rintro ⟨a, rest, ⟨⟩, h⟩
      exact h

/-- A projection goes through a sequence part by part. -/
theorem map_bind_eq {ε α α' β β' : Type} {f : α → α'} {h : β → β'} {x : Except ε α}
    {k : α → Except ε β} {g : α' → Except ε β'} (hk : ∀ a, h <$> k a = g (f a)) :
    h <$> (x >>= k) = (f <$> x) >>= g := by
  cases x with
  | error e => rfl
  | ok a => exact hk a

/-! ## Single tokens

A token that does not fit is not consumed, and the error points at it; where none is left the error
points at nothing. All other errors of the grammar arise in the same two ways. -/

theorem outcome_expect_nil (k : Kind) :
    outcome (expect k []) = .error ⟨none, .expected k⟩ := rfl

theorem outcome_expect_cons (k : Kind) (t : Token) (rest : List Token) :
    outcome (expect k (t :: rest)) =
      if t.kind = k then .ok (t, rest) else .error ⟨some t, .expected k⟩ := by
  show _ <$> (if _ then _ else _) = if _ then _ else _
  split <;> rfl

/-- An identifier keeps the text of its token and where it stands. -/
theorem outcome_ident (ts : List Token) : outcome (ident ts) = (do
    let (t, rest) ← outcome (expect .identifier ts)
    return (⟨t.text, t.index⟩, rest)) :=
  map_bind_eq fun _ => rfl

/-- The kind of the token is checked first. A number too great for a word is an error of its own, at
    the token that has just been taken. -/
theorem outcome_numeral (ts : List Token) : outcome (numeral ts) = (do
    let (t, rest) ← outcome (expect .number ts)
    match Decimal.word? t.text with
    | some value => return (⟨value, t.index⟩, rest)
    | none => throw ⟨some t, .invalidNumber⟩) := by
  refine map_bind_eq fun ⟨t, rest, h⟩ => ?_
  dsimp only
  cases Decimal.word? t.text <;> rfl

/-! ## Lists

Lists are read with one token in sight. The token behind a phrase decides whether the list goes on,
and it is left in place where it does not. -/

/-- Only a comma asks for another phrase, and then there must be one. -/
theorem outcome_commaSeparated (item : (ts : List Token) → Reading α ts) (ts : List Token) :
    outcome (commaSeparated item ts) = (do
      let (x, rest) ← outcome (item ts)
      match rest with
      | [] => return ([x], [])
      | t :: rest' =>
        if t.kind = .mark .comma then do
          let (xs, rest'') ← outcome (commaSeparated item rest')
          return (x :: xs, rest'')
        else return ([x], t :: rest')) := by
  rw [commaSeparated]
  refine map_bind_eq fun ⟨x, rest, h⟩ => ?_
  cases rest with
  | nil => rfl
  | cons t rest' =>
    -- Both sides branch on the same token; the lengths are all that differs.
    show _ <$> (if _ then _ else _) = if _ then _ else _
    split
    · exact map_bind_eq fun _ => rfl
    · rfl

/-- Both parentheses are required, and at least one phrase between them. -/
theorem outcome_parenthesized (item : (ts : List Token) → Reading α ts) (ts : List Token) :
    outcome (parenthesized item ts) = (do
      let (_, rest) ← outcome (expect (.mark .leftParen) ts)
      let (xs, rest') ← outcome (commaSeparated item rest)
      let (_, rest'') ← outcome (expect (.mark .rightParen) rest')
      return (xs, rest'')) :=
  map_bind_eq fun _ => map_bind_eq fun _ => map_bind_eq fun _ => rfl

theorem outcome_declarations_nil (k : Keyword) (item : (ts : List Token) → Reading α ts) :
    outcomeOpt (declarations k item []) = .ok ([], []) := rfl

/-- The word in front tells whether the section is there. If it is, its list and the semicolon are
    required; if it is not, nothing is consumed. -/
theorem outcome_declarations_cons (k : Keyword) (item : (ts : List Token) → Reading α ts)
    (t : Token) (rest : List Token) :
    outcomeOpt (declarations k item (t :: rest)) =
      if t.kind = .keyword k then do
        let (ds, rest') ← outcome (commaSeparated item rest)
        let (_, rest'') ← outcome (expect (.mark .semicolon) rest')
        return (ds, rest'')
      else .ok ([], t :: rest) := by
  show _ <$> (if _ then _ else _) = if _ then _ else _
  split
  · exact map_bind_eq fun _ => map_bind_eq fun _ => rfl
  · rfl

/-! ## Expressions

Sums and products are read alike, each by a reader for the first operand and one for what follows
(`moreTerms`, `moreFactors`). The latter takes what has been read so far with it, and so nests to
the left. -/

/-- Without a token the first factor is missing; an expression has no error of its own. -/
theorem outcome_expr_nil : outcome (expr []) = .error ⟨none, .expectedFactor⟩ := by
  rw [expr]
  rfl

/-- A sign in front is taken away; anything else is left to the first term. -/
theorem outcome_expr_cons (t : Token) (rest : List Token) : outcome (expr (t :: rest)) = (do
    let (ts, rest') ← outcome (terms (if (sign? t).isSome then rest else t :: rest))
    return (.mk (sign? t) ts, rest')) := by
  rw [expr]
  cases sign? t with
  | some s => exact map_bind_eq fun _ => rfl
  | none => exact map_bind_eq fun _ => rfl

/-- A sum is its first term and what follows it. -/
theorem outcome_terms (ts : List Token) : outcome (terms ts) = (do
    let (t, rest) ← outcome (term ts)
    let (e, rest') ← outcomeOpt (moreTerms (.single t) rest)
    return (e, rest')) := by
  rw [terms]
  exact map_bind_eq fun _ => map_bind_eq fun _ => rfl

theorem outcome_moreTerms_nil (left : Terms) :
    outcomeOpt (moreTerms left []) = .ok (left, []) := by
  rw [moreTerms]
  rfl

/-- Behind `left` the sum goes on if an operator of sums is next. The term behind it joins `left`,
    and the same question is asked again. -/
theorem outcome_moreTerms_cons (left : Terms) (t : Token) (rest : List Token) :
    outcomeOpt (moreTerms left (t :: rest)) =
      match addOp? t with
      | some op => do
        let (right, rest') ← outcome (term rest)
        let (e, rest'') ← outcomeOpt (moreTerms (.join left op right) rest')
        return (e, rest'')
      | none => .ok (left, t :: rest) := by
  rw [moreTerms]
  cases addOp? t with
  | some op => exact map_bind_eq fun _ => map_bind_eq fun _ => rfl
  | none => rfl

/-- A product is its first factor and what follows it. -/
theorem outcome_term (ts : List Token) : outcome (term ts) = (do
    let (f, rest) ← outcome (factor ts)
    let (t, rest') ← outcomeOpt (moreFactors (.single f) rest)
    return (t, rest')) := by
  rw [term]
  exact map_bind_eq fun _ => map_bind_eq fun _ => rfl

theorem outcome_moreFactors_nil (left : Term) :
    outcomeOpt (moreFactors left []) = .ok (left, []) := by
  rw [moreFactors]
  rfl

/-- Behind `left` the product goes on if an operator of products is next. -/
theorem outcome_moreFactors_cons (left : Term) (t : Token) (rest : List Token) :
    outcomeOpt (moreFactors left (t :: rest)) =
      match mulOp? t with
      | some op => do
        let (right, rest') ← outcome (factor rest)
        let (e, rest'') ← outcomeOpt (moreFactors (.join left op right) rest')
        return (e, rest'')
      | none => .ok (left, t :: rest) := by
  rw [moreFactors]
  cases mulOp? t with
  | some op => exact map_bind_eq fun _ => map_bind_eq fun _ => rfl
  | none => rfl

theorem outcome_factor_nil : outcome (factor []) = .error ⟨none, .expectedFactor⟩ := by
  rw [factor]
  rfl

/-- The kind of the token in front tells the three factors apart. Numbers and names are left to
    their readers with this token still in front. -/
theorem outcome_factor_cons (t : Token) (rest : List Token) :
    outcome (factor (t :: rest)) =
      match t.kind with
      | .mark .leftParen => do
        let (e, rest') ← outcome (expr rest)
        let (_, rest'') ← outcome (expect (.mark .rightParen) rest')
        return (.group e, rest'')
      | .number => do
        let (n, rest') ← outcome (numeral (t :: rest))
        return (.number n, rest')
      | .identifier => do
        let (x, rest') ← outcome (ident (t :: rest))
        return (.ident x, rest')
      | _ => .error ⟨some t, .expectedFactor⟩ := by
  rw [factor]
  -- Only the kind of `t` is looked at, so that the equation splits like the kinds.
  generalize t.kind = k
  cases k with
  | mark m =>
    cases m
    case leftParen => exact map_bind_eq fun _ => map_bind_eq fun _ => rfl
    all_goals rfl
  | keyword w => rfl
  | identifier => exact map_bind_eq fun _ => rfl
  | number => exact map_bind_eq fun _ => rfl

/-! ## Conditions

A word stands in front of `odd` only; every other condition is a comparison. -/

theorem outcome_relation_nil : outcome (relation []) = .error ⟨none, .expectedRelation⟩ := rfl

theorem outcome_relation_cons (t : Token) (rest : List Token) :
    outcome (relation (t :: rest)) =
      match relation? t with
      | some r => .ok (r, rest)
      | none => .error ⟨some t, .expectedRelation⟩ := by
  unfold relation
  cases h : relation? t <;> simp [h] <;> rfl

/-- An expression, a relation and an expression, all of them required. -/
theorem outcome_comparison (ts : List Token) : outcome (comparison ts) = (do
    let (l, rest) ← outcome (expr ts)
    let (r, rest') ← outcome (relation rest)
    let (e, rest'') ← outcome (expr rest')
    return (.compare l r e, rest'')) :=
  map_bind_eq fun _ => map_bind_eq fun _ => map_bind_eq fun _ => rfl

/-- Without a token the error is that of a comparison. -/
theorem outcome_condition_nil : outcome (condition []) = outcome (comparison []) := rfl

theorem outcome_condition_cons (t : Token) (rest : List Token) :
    outcome (condition (t :: rest)) =
      if t.kind = .keyword .oddKw then do
        let (e, rest') ← outcome (expr rest)
        return (.odd e, rest')
      else outcome (comparison (t :: rest)) := by
  show _ <$> (if _ then _ else _) = if _ then _ else _
  split
  · exact map_bind_eq fun _ => rfl
  · rfl

/-! ## Statements

The empty statement makes every statement optional: where no other one starts, it is read and no
token is consumed. An error can only come from inside a statement that has begun. -/

/-- The target and the `:=` behind it have been taken already. -/
theorem outcome_assignment (target : Token) (ts : List Token) :
    outcome (assignment target ts) = (do
      let (e, rest) ← outcome (expr ts)
      return (.assign ⟨target.text, target.index⟩ e, rest)) :=
  map_bind_eq fun _ => rfl

theorem outcome_statement_nil : outcomeOpt (statement []) = .ok (.empty, []) := by
  rw [statement]
  rfl

/-- **A statement is told by the token in front**, with one exception: an identifier starts an
    assignment only if `:=` stands behind it. This is the one place where the grammar looks at two
    tokens. -/
theorem outcome_statement_cons (t : Token) (rest : List Token) :
    outcomeOpt (statement (t :: rest)) =
      match t.kind with
      | .keyword .beginKw => do
        let (body, rest') ← outcomeOpt (statements rest)
        let (_, rest'') ← outcome (expect (.keyword .endKw) rest')
        return (.block body, rest'')
      | .keyword .whileKw => do
        let (c, rest') ← outcome (condition rest)
        let (_, rest'') ← outcome (expect (.keyword .doKw) rest')
        let (body, rest''') ← outcomeOpt (statement rest'')
        return (.whileDo c body, rest''')
      | .keyword .ifKw => do
        let (c, rest') ← outcome (condition rest)
        let (_, rest'') ← outcome (expect (.keyword .thenKw) rest')
        let (body, rest''') ← outcomeOpt (statement rest'')
        return (.ifThen c body, rest''')
      | .keyword .readKw => do
        let (targets, rest') ← outcome (parenthesized ident rest)
        return (.read targets, rest')
      | .keyword .writeKw => do
        let (values, rest') ← outcome (parenthesized expr rest)
        return (.write values, rest')
      | .keyword .callKw => do
        let (callee, rest') ← outcome (ident rest)
        return (.call callee, rest')
      | .identifier =>
        match rest with
        | [] => .ok (.empty, [t])
        | t' :: rest' =>
          if t'.kind = .mark .assign then do
            let (s, rest'') ← outcome (assignment t rest')
            return (s, rest'')
          else .ok (.empty, t :: t' :: rest')
      | _ => .ok (.empty, t :: rest) := by
  rw [statement.eq_def]
  dsimp only
  -- As for factors, the equation splits like the kinds; the words without a statement fall
  -- together.
  generalize t.kind = k
  cases k with
  | mark m => rfl
  | keyword w =>
    cases w
    case beginKw => exact map_bind_eq fun _ => map_bind_eq fun _ => rfl
    case whileKw =>
      exact map_bind_eq fun _ => map_bind_eq fun _ =>
        map_bind_eq fun _ => rfl
    case ifKw =>
      exact map_bind_eq fun _ => map_bind_eq fun _ =>
        map_bind_eq fun _ => rfl
    case readKw => exact map_bind_eq fun _ => rfl
    case writeKw => exact map_bind_eq fun _ => rfl
    case callKw => exact map_bind_eq fun _ => rfl
    all_goals rfl
  | identifier =>
    -- Only here the token behind counts.
    cases rest with
    | nil => rfl
    | cons t' rest' =>
      show _ <$> (if _ then _ else _) = if _ then _ else _
      split
      · exact map_bind_eq fun _ => rfl
      · rfl
  | number => rfl

/-- Behind a semicolon there is always another statement, the empty one if need be. -/
theorem outcome_statements (ts : List Token) : outcomeOpt (statements ts) = (do
    let (s, rest) ← outcomeOpt (statement ts)
    match rest with
    | [] => return ([s], [])
    | t :: rest' =>
      if t.kind = .mark .semicolon then do
        let (ss, rest'') ← outcomeOpt (statements rest')
        return (s :: ss, rest'')
      else return ([s], t :: rest')) := by
  rw [statements]
  refine map_bind_eq fun ⟨s, rest, h⟩ => ?_
  cases rest with
  | nil => rfl
  | cons t rest' =>
    show _ <$> (if _ then _ else _) = if _ then _ else _
    split
    · exact map_bind_eq fun _ => rfl
    · rfl

/-! ## Blocks

A block has three sections of declarations and a statement, each of which may be missing; so even no
tokens at all are a block. What is required stands inside the sections. -/

/-- A name, `=` and a number. -/
theorem outcome_constDecl (ts : List Token) : outcome (constDecl ts) = (do
    let (name, rest) ← outcome (ident ts)
    let (_, rest') ← outcome (expect (.mark .equal) rest)
    let (value, rest'') ← outcome (numeral rest')
    return (⟨name, value⟩, rest'')) :=
  map_bind_eq fun _ => map_bind_eq fun _ => map_bind_eq fun _ => rfl

/-- The header of a procedure, behind its word. -/
theorem outcome_procedureName (ts : List Token) : outcome (procedureName ts) = (do
    let (name, rest) ← outcome (ident ts)
    let (_, rest') ← outcome (expect (.mark .semicolon) rest)
    return (name, rest')) :=
  map_bind_eq fun _ => map_bind_eq fun _ => rfl

/-- The parts of a block, in the one order in which they can come. -/
theorem outcome_block (ts : List Token) : outcomeOpt (block ts) = (do
    let (consts, rest) ← outcomeOpt (declarations .constKw constDecl ts)
    let (vars, rest') ← outcomeOpt (declarations .varKw ident rest)
    let (ps, rest'') ← outcomeOpt (procedures rest')
    let (body, rest''') ← outcomeOpt (statement rest'')
    return (.mk consts vars ps body, rest''')) := by
  rw [block]
  exact map_bind_eq fun _ => map_bind_eq fun _ =>
    map_bind_eq fun _ => map_bind_eq fun _ => rfl

theorem outcome_procedures_nil : outcomeOpt (procedures []) = .ok ([], []) := by
  rw [procedures]
  rfl

/-- One procedure behind the other, as long as their word is in front. The semicolon behind each
    block is required. -/
theorem outcome_procedures_cons (t : Token) (rest : List Token) :
    outcomeOpt (procedures (t :: rest)) =
      if t.kind = .keyword .procedureKw then do
        let (name, rest') ← outcome (procedureName rest)
        let (body, rest'') ← outcomeOpt (block rest')
        let (_, rest''') ← outcome (expect (.mark .semicolon) rest'')
        let (ps, rest'''') ← outcomeOpt (procedures rest''')
        return (.mk name body :: ps, rest'''')
      else .ok ([], t :: rest) := by
  rw [procedures]
  show _ <$> (if _ then _ else _) = if _ then _ else _
  split
  · exact map_bind_eq fun _ => map_bind_eq fun _ =>
      map_bind_eq fun _ => map_bind_eq fun _ => rfl
  · rfl

/-! ## Programs -/

/-- **A program** is a block and a dot, and no token is left behind them. -/
theorem ofTokens_eq (ts : List Token) : Program.ofTokens ts = (do
    let (b, rest) ← outcomeOpt (block ts)
    let (_, rest') ← outcome (expect (.mark .dot) rest)
    match rest' with
    | [] => return ⟨b⟩
    | t :: _ => throw ⟨some t, .trailingInput⟩) := by
  unfold Program.ofTokens
  -- Here the block is bound together with its length proof, so the parts are opened one by one.
  cases block ts with
  | error e => rfl
  | ok p =>
    obtain ⟨b, rest, h⟩ := p
    show ((expect (.mark .dot) rest) >>= _) = (outcome (expect (.mark .dot) rest) >>= _)
    cases expect (.mark .dot) rest with
    | error e => rfl
    | ok q =>
      obtain ⟨t, rest', h'⟩ := q
      cases rest' <;> rfl

end PL0.Grammar
