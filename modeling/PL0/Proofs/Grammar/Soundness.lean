import PL0.Proofs.Grammar.Outcome
import PL0.Proofs.Grammar.Rendering

/-!
# `Grammar.Soundness` — what a reader answers has been written

If a reader answers a phrase, tokens that write this phrase stood in front of the tokens left over.
Phrases that the grammar makes without choice are read exactly where they are written; these
statements are equivalences, and `Grammar.Completeness` uses them from right to left.

Every proof has the same course. The equation of the reader (`Grammar.Outcome`) shows what it has read
in turn; each part is spelled by the tokens that it took, by the statement about its own reader; and
`Spells.append` joins these pieces, since the tokens that one part left over are those that the next
one started from.

Main statement: `writtenBy_of_ofTokens`.
-/

namespace PL0.Grammar

open Terminal

variable {α : Type} {ts rest : List Token}

theorem pure_eq_ok_iff {β : Type} {a b : β} :
    (pure a : Except SyntaxError β) = .ok b ↔ a = b := by
  simp [pure, Except.pure]

/-! ## Phrases without choice

Names, numbers and the headers of declarations have a fixed sequence of terminals. Reading one and
spelling one are the same thing, whatever stands behind. -/

/-- A required token is the one in front, and it has the required kind. -/
theorem expect_eq_ok_iff {k : Kind} {t : Token} :
    outcome (expect k ts) = .ok (t, rest) ↔ ts = t :: rest ∧ t.kind = k := by
  cases ts with
  | nil => simp [outcome_expect_nil]
  | cons u us =>
    rw [outcome_expect_cons]
    split
    · rename_i hk
      simp only [Except.ok.injEq, Prod.mk.injEq, List.cons.injEq]
      constructor
      · rintro ⟨rfl, rfl⟩
        exact ⟨⟨rfl, rfl⟩, hk⟩
      · exact fun h => h.1
    · rename_i hk
      simp only [reduceCtorEq, List.cons.injEq, false_iff]
      rintro ⟨⟨rfl, rfl⟩, h⟩
      exact hk h

/-- What is read behind a required token. -/
theorem expect_bind_eq_ok_iff {β : Type} {k : Kind}
    {f : Token × List Token → Except SyntaxError β} {b : β} :
    outcome (expect k ts) >>= f = .ok b ↔
      ∃ t mid, ts = t :: mid ∧ t.kind = k ∧ f (t, mid) = .ok b := by
  simp only [andThen_eq_ok_iff, expect_eq_ok_iff, and_assoc]

/-- A name is read from an identifier with its text, and its index is that of the token. -/
theorem ident_eq_ok_iff {x : Ident} :
    outcome (ident ts) = .ok (x, rest) ↔ Spells x.terminals ts rest := by
  simp only [Ident.terminals, outcome_ident, expect_bind_eq_ok_iff, pure_eq_ok_iff, spells_cons,
    spells_nil, matches_name, Prod.mk.injEq]
  constructor
  · rintro ⟨t, mid, rfl, hk, rfl, rfl⟩
    exact ⟨t, mid, rfl, ⟨hk, rfl⟩, rfl⟩
  · rintro ⟨t, mid, rfl, ⟨hk, rfl⟩, rfl⟩
    exact ⟨t, mid, rfl, hk, rfl, rfl⟩

/-- A numeral is read where a number in the range of a word is written. Its digits are not kept, so
    a numeral may be written in several ways. -/
theorem numeral_eq_ok_iff {n : Numeral} :
    outcome (numeral ts) = .ok (n, rest) ↔ Spells [.number n] ts rest := by
  simp only [outcome_numeral, expect_bind_eq_ok_iff, spells_cons, spells_nil, matches_number]
  constructor
  · rintro ⟨t, mid, rfl, hk, h⟩
    cases hv : Decimal.word? t.text with
    -- Too great for a word: nothing is read.
    | none => simp [hv, throw, throwThe, MonadExceptOf.throw] at h
    | some v =>
      simp only [hv, pure_eq_ok_iff] at h
      cases h
      exact ⟨t, _, rfl, ⟨hk, hv, rfl⟩, rfl⟩
  · rintro ⟨t, mid, rfl, ⟨hk, hv, hi⟩, rfl⟩
    refine ⟨t, mid, rfl, hk, ?_⟩
    simp [hv, hi, pure_eq_ok_iff]

/-- The declaration of a constant is a name, `=` and a number. -/
theorem constDecl_eq_ok_iff {d : ConstDecl} :
    outcome (constDecl ts) = .ok (d, rest) ↔ Spells d.terminals ts rest := by
  have hsplit : d.terminals = d.name.terminals ++ ([.mark .equal] ++ [.number d.value]) := rfl
  -- Both sides become sequences of three parts; what remains is to match them up.
  simp only [hsplit, spells_append, outcome_constDecl, andThen_eq_ok_iff, ident_eq_ok_iff,
    numeral_eq_ok_iff, pure_eq_ok_iff, Prod.mk.injEq]
  constructor
  · rintro ⟨x, mid, hx, t, mid', ht, n, mid'', hn, rfl, rfl⟩
    obtain ⟨rfl, hk⟩ := expect_eq_ok_iff.1 ht
    exact ⟨_, hx, mid', .single (matches_mark.2 hk), hn⟩
  · rintro ⟨mid, hx, mid', ht, hn⟩
    obtain ⟨t, _, rfl, hk, hmid⟩ := spells_cons.1 ht
    cases spells_nil.1 hmid
    exact ⟨_, _, hx, t, _, expect_eq_ok_iff.2 ⟨rfl, matches_mark.1 hk⟩, _, _, hn, rfl, rfl⟩

/-- The header of a procedure, behind its word, is a name and a semicolon. -/
theorem procedureName_eq_ok_iff {x : Ident} :
    outcome (procedureName ts) = .ok (x, rest) ↔
      Spells [.name x, .mark .semicolon] ts rest := by
  have hsplit : [Terminal.name x, .mark .semicolon] = x.terminals ++ [.mark .semicolon] := rfl
  simp only [hsplit, spells_append, outcome_procedureName, andThen_eq_ok_iff, ident_eq_ok_iff,
    pure_eq_ok_iff, Prod.mk.injEq]
  constructor
  · rintro ⟨x, mid, hx, t, mid', ht, rfl, rfl⟩
    obtain ⟨rfl, hk⟩ := expect_eq_ok_iff.1 ht
    exact ⟨_, hx, .single (matches_mark.2 hk)⟩
  · rintro ⟨mid, hx, ht⟩
    obtain ⟨t, _, rfl, hk, hmid⟩ := spells_cons.1 ht
    cases spells_nil.1 hmid
    exact ⟨_, _, hx, t, _, expect_eq_ok_iff.2 ⟨rfl, matches_mark.1 hk⟩, rfl, rfl⟩

/-! ## Operators

Each reader of operators knows as many kinds of tokens as there are operators, and no two operators
share a mark. -/

/-- A sign is read from its mark and from no other token. -/
theorem sign?_eq_some_iff {t : Token} {s : Sign} : sign? t = some s ↔ t.kind = .mark s.mark := by
  unfold sign?
  constructor
  · intro h
    split at h <;> cases h <;> assumption
  · intro h
    rw [h]
    cases s <;> rfl

theorem addOp?_eq_some_iff {t : Token} {op : AddOp} :
    addOp? t = some op ↔ t.kind = .mark op.mark := by
  unfold addOp?
  constructor
  · intro h
    split at h <;> cases h <;> assumption
  · intro h
    rw [h]
    cases op <;> rfl

theorem mulOp?_eq_some_iff {t : Token} {op : MulOp} :
    mulOp? t = some op ↔ t.kind = .mark op.mark := by
  unfold mulOp?
  constructor
  · intro h
    split at h <;> cases h <;> assumption
  · intro h
    rw [h]
    cases op <;> rfl

theorem relation?_eq_some_iff {t : Token} {r : Relation} :
    relation? t = some r ↔ t.kind = .mark r.mark := by
  unfold relation?
  constructor
  · intro h
    split at h <;> cases h <;> assumption
  · intro h
    rw [h]
    cases r <;> rfl

/-- A relation is required between two expressions; it takes one token. -/
theorem relation_eq_ok_iff {r : Relation} :
    outcome (relation ts) = .ok (r, rest) ↔ Spells [.mark r.mark] ts rest := by
  simp only [spells_cons, spells_nil, matches_mark, ← relation?_eq_some_iff]
  cases ts with
  | nil => simp [outcome_relation_nil]
  | cons t ts =>
    rw [outcome_relation_cons]
    cases h : relation? t with
    | none => simp [h]
    | some r' => simp [h, and_comm]

/-! ## Lists

A list is read by a given reader for its phrases. The statements about lists ask of this reader what
is to be shown of all of them, that what it answers has been written; they also say that no list is
empty, which is why the trees of `Grammar.Completeness` have to be filled. -/

/-- There is a comma behind every phrase of a list but the last. -/
theorem listed_cons {item : α → List Terminal} (x : α) {xs : List α} (h : xs ≠ []) :
    listed item (x :: xs) = item x ++ .mark .comma :: listed item xs := by
  cases xs with
  | nil => exact absurd rfl h
  | cons y ys => simp [listed]

/-- What a list of phrases answers has been written, with commas between the phrases. -/
theorem spells_commaSeparated {item : (ts : List Token) → Reading α ts}
    {terms : α → List Terminal}
    (hitem : ∀ {ts x rest}, outcome (item ts) = .ok (x, rest) → Spells (terms x) ts rest)
    {ts rest : List Token} {xs : List α}
    (h : outcome (commaSeparated item ts) = .ok (xs, rest)) :
    xs ≠ [] ∧ Spells (listed terms xs) ts rest := by
  rw [outcome_commaSeparated, andThen_eq_ok_iff] at h
  obtain ⟨x, mid, hx, h⟩ := h
  have hlt := length_lt_of_outcome hx
  have hsingle : Spells (listed terms [x]) ts mid := by simpa [listed] using hitem hx
  -- Whether the list goes on shows in the token behind the first phrase.
  cases mid with
  | nil =>
    cases h
    exact ⟨by simp, hsingle⟩
  | cons t mid =>
    dsimp only at h
    split at h
    · rename_i hk
      rw [andThen_eq_ok_iff] at h
      obtain ⟨ys, mid', hys, h⟩ := h
      cases h
      have hshort : mid.length < ts.length := by
        rw [List.length_cons] at hlt
        omega
      obtain ⟨hne, hys⟩ := spells_commaSeparated hitem hys
      refine ⟨by simp, ?_⟩
      rw [listed_cons x hne]
      exact (hitem hx).append (.cons (matches_mark.2 hk) hys)
    · cases h
      exact ⟨by simp, hsingle⟩
termination_by ts.length

/-- The same in parentheses, as behind `read` and `write`. -/
theorem spells_parenthesized {item : (ts : List Token) → Reading α ts}
    {terms : α → List Terminal}
    (hitem : ∀ {ts x rest}, outcome (item ts) = .ok (x, rest) → Spells (terms x) ts rest)
    {xs : List α} (h : outcome (parenthesized item ts) = .ok (xs, rest)) :
    xs ≠ [] ∧ Spells (grouped terms xs) ts rest := by
  rw [outcome_parenthesized, expect_bind_eq_ok_iff] at h
  obtain ⟨t, mid, rfl, hk, h⟩ := h
  obtain ⟨ys, mid', hys, h⟩ := andThen_eq_ok_iff.1 h
  obtain ⟨u, mid'', rfl, hu, h⟩ := expect_bind_eq_ok_iff.1 h
  cases h
  obtain ⟨hne, hys⟩ := spells_commaSeparated hitem hys
  exact ⟨hne, .cons (matches_mark.2 hk) (hys.append (.single (matches_mark.2 hu)))⟩

/-- A section of declarations is its word, a list and a semicolon, or nothing at all. -/
theorem spells_declarations {k : Keyword} {item : (ts : List Token) → Reading α ts}
    {terms : α → List Terminal}
    (hitem : ∀ {ts x rest}, outcome (item ts) = .ok (x, rest) → Spells (terms x) ts rest)
    {xs : List α} (h : outcomeOpt (declarations k item ts) = .ok (xs, rest)) :
    Spells (declared k terms xs) ts rest := by
  cases ts with
  | nil =>
    rw [outcome_declarations_nil] at h
    cases h
    exact spells_nil.2 rfl
  | cons t ts =>
    rw [outcome_declarations_cons] at h
    split at h
    · rename_i hk
      obtain ⟨ys, mid, hys, h⟩ := andThen_eq_ok_iff.1 h
      obtain ⟨u, mid', rfl, hu, h⟩ := expect_bind_eq_ok_iff.1 h
      cases h
      obtain ⟨hne, hys⟩ := spells_commaSeparated hitem hys
      -- A section without declarations would be written like no section.
      obtain ⟨y, ys, rfl⟩ := List.exists_cons_of_ne_nil hne
      exact .cons (matches_keyword.2 hk) (hys.append (.single (matches_mark.2 hu)))
    · cases h
      exact spells_nil.2 rfl

/-! ## Chains

Sums and products are chains of items with operators between them. `ChainReader` gathers what both
readers have in common, and one induction covers the two. -/

/-- `more` reads what follows in a chain: an operator and the next item, as long as there is an
    operator. -/
structure ChainReader {γ ι ω : Type} (more : γ → List Token → Except SyntaxError (γ × List Token))
    (item : List Token → Except SyntaxError (ι × List Token)) (join : γ → ω → ι → γ)
    (terms : γ → List Terminal) (itemTerms : ι → List Terminal) (op? : Token → Option ω)
    (mark : ω → Mark) : Prop where
  nil : ∀ left, more left [] = .ok (left, [])
  go : ∀ {left t op}, op? t = some op → ∀ rest, more left (t :: rest) = do
    let (right, rest') ← item rest
    let (e, rest'') ← more (join left op right) rest'
    return (e, rest'')
  stop : ∀ {left t}, op? t = none → ∀ rest, more left (t :: rest) = .ok (left, t :: rest)
  shorter : ∀ {ts x rest}, item ts = .ok (x, rest) → rest.length < ts.length
  op : ∀ {t op}, op? t = some op ↔ t.kind = .mark (mark op)
  join : ∀ left op right,
    terms (join left op right) = terms left ++ .mark (mark op) :: itemTerms right

/-- Sums are chains of terms. -/
theorem chainReader_terms :
    ChainReader (fun left us => outcomeOpt (moreTerms left us)) (fun us => outcome (term us)) .join
      Terms.terminals Term.terminals addOp? AddOp.mark where
  nil := outcome_moreTerms_nil
  go h us := by rw [outcome_moreTerms_cons, h]
  stop h us := by rw [outcome_moreTerms_cons, h]
  shorter := length_lt_of_outcome
  op := addOp?_eq_some_iff
  join _ _ _ := rfl

/-- Products are chains of factors. -/
theorem chainReader_factors :
    ChainReader (fun left us => outcomeOpt (moreFactors left us)) (fun us => outcome (factor us))
      .join Term.terminals Factor.terminals mulOp? MulOp.mark where
  nil := outcome_moreFactors_nil
  go h us := by rw [outcome_moreFactors_cons, h]
  stop h us := by rw [outcome_moreFactors_cons, h]
  shorter := length_lt_of_outcome
  op := mulOp?_eq_some_iff
  join _ _ _ := rfl

/-- What is read behind a part of a chain has been written, if this holds of its items. -/
theorem ChainReader.spells {γ ι ω : Type}
    {more : γ → List Token → Except SyntaxError (γ × List Token)}
    {item : List Token → Except SyntaxError (ι × List Token)} {join : γ → ω → ι → γ}
    {terms : γ → List Terminal} {itemTerms : ι → List Terminal} {op? : Token → Option ω}
    {mark : ω → Mark} (hchain : ChainReader more item join terms itemTerms op? mark)
    (ts : List Token)
    (hitem : ∀ us, us.length < ts.length → ∀ {x rest}, item us = .ok (x, rest) →
      Spells (itemTerms x) us rest)
    {left e : γ} {rest : List Token} (h : more left ts = .ok (e, rest)) :
    ∃ ss, terms e = terms left ++ ss ∧ Spells ss ts rest := by
  cases ts with
  | nil =>
    rw [hchain.nil] at h
    cases h
    exact ⟨[], (List.append_nil _).symm, spells_nil.2 rfl⟩
  | cons t ts =>
    cases ht : op? t with
    | none =>
      rw [hchain.stop ht] at h
      cases h
      exact ⟨[], (List.append_nil _).symm, spells_nil.2 rfl⟩
    | some op =>
      rw [hchain.go ht] at h
      obtain ⟨right, mid, hr, h⟩ := andThen_eq_ok_iff.1 h
      obtain ⟨e', mid', he, h⟩ := andThen_eq_ok_iff.1 h
      cases h
      -- The item behind the operator takes a token, so the rest of the chain is shorter; by
      -- induction its items are written too.
      have hlt := hchain.shorter hr
      have hright := hitem ts (Nat.lt_succ_self _) hr
      obtain ⟨ss, hss, hs⟩ := hchain.spells mid
        (fun us hus => hitem us (by rw [List.length_cons]; omega)) he
      refine ⟨.mark (mark op) :: (itemTerms right ++ ss), ?_, ?_⟩
      · rw [hss, hchain.join, List.append_assoc, List.cons_append]
      · exact .cons (matches_mark.2 (hchain.op.1 ht)) (hright.append hs)
termination_by ts.length
decreasing_by all_goals (subst_vars; simp only [List.length_cons] at *; omega)

/-! ## Expressions

An expression may stand in parentheses inside a factor, so the four statements are proved together.
The measure goes down by the tokens that are left, and from an expression to a factor by its last
summand, since no token is consumed on the way. -/

mutual

/-- The sign of an expression, if there is one, is the token in front. -/
theorem spells_expr {ts rest : List Token} {e : Expr}
    (h : outcome (expr ts) = .ok (e, rest)) : Spells e.terminals ts rest := by
  cases ts with
  | nil =>
    rw [outcome_expr_nil] at h
    cases h
  | cons t ts =>
    rw [outcome_expr_cons] at h
    obtain ⟨us, mid, hus, h⟩ := andThen_eq_ok_iff.1 h
    cases h
    cases hs : sign? t with
    | none =>
      rw [hs] at hus
      exact spells_terms hus
    | some s =>
      rw [hs] at hus
      exact .cons (matches_mark.2 (sign?_eq_some_iff.1 hs)) (spells_terms hus)
termination_by 5 * ts.length + 4
decreasing_by all_goals (subst_vars; simp only [List.length_cons] at *; omega)

/-- A sum is written as its first term and, behind it, the chain of the others. -/
theorem spells_terms {ts rest : List Token} {e : Terms}
    (h : outcome (terms ts) = .ok (e, rest)) : Spells e.terminals ts rest := by
  rw [outcome_terms] at h
  obtain ⟨t, mid, ht, h⟩ := andThen_eq_ok_iff.1 h
  obtain ⟨e', mid', he, h⟩ := andThen_eq_ok_iff.1 h
  cases h
  have hlt := length_lt_of_outcome ht
  obtain ⟨more, hmore, hs⟩ := chainReader_terms.spells mid (fun _ _ => spells_term) he
  rw [hmore]
  exact (spells_term ht).append hs
termination_by 5 * ts.length + 3

/-- A product is written as its first factor and, behind it, the chain of the others. -/
theorem spells_term {ts rest : List Token} {t : Term}
    (h : outcome (term ts) = .ok (t, rest)) : Spells t.terminals ts rest := by
  rw [outcome_term] at h
  obtain ⟨f, mid, hf, h⟩ := andThen_eq_ok_iff.1 h
  obtain ⟨t', mid', ht, h⟩ := andThen_eq_ok_iff.1 h
  cases h
  have hlt := length_lt_of_outcome hf
  obtain ⟨more, hmore, hs⟩ := chainReader_factors.spells mid (fun _ _ => spells_factor) ht
  rw [hmore]
  exact (spells_factor hf).append hs
termination_by 5 * ts.length + 2

/-- A factor is written in one of three ways, as the token in front tells. -/
theorem spells_factor {ts rest : List Token} {f : Factor}
    (h : outcome (factor ts) = .ok (f, rest)) : Spells f.terminals ts rest := by
  cases ts with
  | nil =>
    rw [outcome_factor_nil] at h
    cases h
  | cons t ts =>
    rw [outcome_factor_cons] at h
    split at h
    · rename_i hk
      obtain ⟨e, mid, he, h⟩ := andThen_eq_ok_iff.1 h
      obtain ⟨u, mid', rfl, hu, h⟩ := expect_bind_eq_ok_iff.1 h
      cases h
      exact .cons (matches_mark.2 hk) ((spells_expr he).append (.single (matches_mark.2 hu)))
    · obtain ⟨n, mid, hn, h⟩ := andThen_eq_ok_iff.1 h
      cases h
      exact numeral_eq_ok_iff.1 hn
    · obtain ⟨x, mid, hx, h⟩ := andThen_eq_ok_iff.1 h
      cases h
      exact ident_eq_ok_iff.1 hx
    · cases h
termination_by 5 * ts.length + 1
decreasing_by all_goals (subst_vars; simp only [List.length_cons] at *; omega)

end

/-- A comparison is written as two expressions with a relation between them. -/
theorem spells_comparison {c : Condition} (h : outcome (comparison ts) = .ok (c, rest)) :
    Spells c.terminals ts rest := by
  rw [outcome_comparison] at h
  obtain ⟨l, mid, hl, h⟩ := andThen_eq_ok_iff.1 h
  obtain ⟨r, mid', hr, h⟩ := andThen_eq_ok_iff.1 h
  obtain ⟨e, mid'', he, h⟩ := andThen_eq_ok_iff.1 h
  cases h
  exact (spells_expr hl).append ((relation_eq_ok_iff.1 hr).append (spells_expr he))

/-- Only `odd` has a word in front. -/
theorem spells_condition {c : Condition} (h : outcome (condition ts) = .ok (c, rest)) :
    Spells c.terminals ts rest := by
  cases ts with
  | nil =>
    rw [outcome_condition_nil] at h
    exact spells_comparison h
  | cons t ts =>
    rw [outcome_condition_cons] at h
    split at h
    · rename_i hk
      obtain ⟨e, mid, he, h⟩ := andThen_eq_ok_iff.1 h
      cases h
      exact .cons (matches_keyword.2 hk) (spells_expr he)
    · exact spells_comparison h

/-! ## Statements

Besides being written, a statement that has been read is filled: each list in it has something in
it. Loops and conditional statements share their form, so what is behind their words is treated
once. -/

/-- An assignment, where the target and the `:=` have been taken. -/
theorem spells_assignment {t u : Token} {s : Statement} (ht : t.kind = .identifier)
    (hu : u.kind = .mark .assign) (h : outcome (assignment t ts) = .ok (s, rest)) :
    s.Filled ∧ Spells s.terminals (t :: u :: ts) rest := by
  rw [outcome_assignment] at h
  obtain ⟨e, mid, he, h⟩ := andThen_eq_ok_iff.1 h
  cases h
  exact ⟨trivial, .cons (matches_name.2 ⟨ht, rfl⟩) (.cons (matches_mark.2 hu) (spells_expr he))⟩

/-- A condition, the word `k` and a statement, which are the rest of a loop or of an `if`. -/
theorem spells_guarded {k : Keyword} {f : Condition → Statement → Statement} {s : Statement}
    (h : (do
      let (c, rest') ← outcome (condition ts)
      let (_, rest'') ← outcome (expect (.keyword k) rest')
      let (body, rest''') ← outcomeOpt (statement rest'')
      return (f c body, rest''')) = .ok (s, rest)) :
    ∃ c body mid, s = f c body ∧ mid.length < ts.length ∧
      outcomeOpt (statement mid) = .ok (body, rest) ∧
      ∀ {ss}, Spells ss mid rest → Spells (c.terminals ++ .keyword k :: ss) ts rest := by
  obtain ⟨c, mid, hc, h⟩ := andThen_eq_ok_iff.1 h
  obtain ⟨u, mid', rfl, hu, h⟩ := expect_bind_eq_ok_iff.1 h
  obtain ⟨body, mid'', hbody, h⟩ := andThen_eq_ok_iff.1 h
  cases h
  have hlt := length_lt_of_outcome hc
  rw [List.length_cons] at hlt
  refine ⟨c, body, mid', rfl, by omega, hbody, fun hs => ?_⟩
  exact (spells_condition hc).append (.cons (matches_keyword.2 hu) hs)

/-- There is a semicolon behind every statement of a list but the last. -/
theorem terminalsOf_cons (s : Statement) {ss : List Statement} (h : ss ≠ []) :
    Statement.terminalsOf (s :: ss) =
      s.terminals ++ .mark .semicolon :: Statement.terminalsOf ss := by
  cases ss with
  | nil => exact absurd rfl h
  | cons s' ss => rfl

mutual

/-- A statement that is read has been written. The empty one takes no tokens and is written by
    none. -/
theorem spells_statement {ts rest : List Token} {s : Statement}
    (h : outcomeOpt (statement ts) = .ok (s, rest)) :
    s.Filled ∧ Spells s.terminals ts rest := by
  cases ts with
  | nil =>
    rw [outcome_statement_nil] at h
    cases h
    exact ⟨trivial, spells_nil.2 rfl⟩
  | cons t ts =>
    rw [outcome_statement_cons] at h
    split at h
    · rename_i hk
      obtain ⟨body, mid, hbody, h⟩ := andThen_eq_ok_iff.1 h
      obtain ⟨u, mid', rfl, hu, h⟩ := expect_bind_eq_ok_iff.1 h
      cases h
      obtain ⟨hne, hfilled, hs⟩ := spells_statements hbody
      refine ⟨⟨hne, hfilled⟩, .cons (matches_keyword.2 hk) ?_⟩
      exact hs.append (.single (matches_keyword.2 hu))
    · rename_i hk
      obtain ⟨c, body, mid, rfl, hlt, hbody, hspells⟩ := spells_guarded h
      obtain ⟨hfilled, hs⟩ := spells_statement hbody
      exact ⟨hfilled, .cons (matches_keyword.2 hk) (hspells hs)⟩
    · rename_i hk
      obtain ⟨c, body, mid, rfl, hlt, hbody, hspells⟩ := spells_guarded h
      obtain ⟨hfilled, hs⟩ := spells_statement hbody
      exact ⟨hfilled, .cons (matches_keyword.2 hk) (hspells hs)⟩
    · rename_i hk
      obtain ⟨targets, mid, htargets, h⟩ := andThen_eq_ok_iff.1 h
      cases h
      obtain ⟨hne, hs⟩ := spells_parenthesized ident_eq_ok_iff.1 htargets
      exact ⟨hne, .cons (matches_keyword.2 hk) hs⟩
    · rename_i hk
      obtain ⟨values, mid, hvalues, h⟩ := andThen_eq_ok_iff.1 h
      cases h
      obtain ⟨hne, hs⟩ := spells_parenthesized spells_expr hvalues
      exact ⟨hne, .cons (matches_keyword.2 hk) hs⟩
    · rename_i hk
      obtain ⟨x, mid, hx, h⟩ := andThen_eq_ok_iff.1 h
      cases h
      exact ⟨trivial, .cons (matches_keyword.2 hk) (ident_eq_ok_iff.1 hx)⟩
    · rename_i hk
      -- An identifier: what stands behind it decides whether it starts an assignment. If it does
      -- not, the statement is empty, and the identifier is left where it is.
      cases ts with
      | nil =>
        cases h
        exact ⟨trivial, spells_nil.2 rfl⟩
      | cons u ts =>
        dsimp only at h
        split at h
        · rename_i hu
          obtain ⟨s', mid, hs, h⟩ := andThen_eq_ok_iff.1 h
          cases h
          exact spells_assignment hk hu hs
        · cases h
          exact ⟨trivial, spells_nil.2 rfl⟩
    · cases h
      exact ⟨trivial, spells_nil.2 rfl⟩
termination_by 2 * ts.length
decreasing_by all_goals (subst_vars; simp only [List.length_cons] at *; omega)

/-- The statements of a `begin`, of which there is always one. -/
theorem spells_statements {ts rest : List Token} {ss : List Statement}
    (h : outcomeOpt (statements ts) = .ok (ss, rest)) :
    ss ≠ [] ∧ Statement.FilledAll ss ∧ Spells (Statement.terminalsOf ss) ts rest := by
  rw [outcome_statements] at h
  obtain ⟨s, mid, hs, h⟩ := andThen_eq_ok_iff.1 h
  have hle := length_le_of_outcomeOpt hs
  obtain ⟨hfilled, hspells⟩ := spells_statement hs
  have hsingle : Spells (Statement.terminalsOf [s]) ts mid := by
    simpa [Statement.terminalsOf, Statement.terminalsBehind] using hspells
  cases mid with
  | nil =>
    cases h
    exact ⟨by simp, ⟨hfilled, trivial⟩, hsingle⟩
  | cons t mid =>
    dsimp only at h
    split at h
    · rename_i hk
      obtain ⟨ss', mid', hss, h⟩ := andThen_eq_ok_iff.1 h
      cases h
      obtain ⟨hne, hall, hrest⟩ := spells_statements hss
      refine ⟨by simp, ⟨hfilled, hall⟩, ?_⟩
      -- Behind the semicolon there is a statement again, so the semicolon is one between two.
      rw [terminalsOf_cons s hne]
      exact hspells.append (.cons (matches_mark.2 hk) hrest)
    · cases h
      exact ⟨by simp, ⟨hfilled, trivial⟩, hsingle⟩
termination_by 2 * ts.length + 1
decreasing_by all_goals (subst_vars; simp only [List.length_cons] at *; omega)

end

/-! ## Blocks

A block contains procedures and a procedure a block. A procedure consumes its word at least, so the
measure goes down with the tokens. -/

mutual

/-- The four parts of a block have been written one behind the other. -/
theorem spells_block {ts rest : List Token} {b : Block}
    (h : outcomeOpt (block ts) = .ok (b, rest)) : b.Filled ∧ Spells b.terminals ts rest := by
  rw [outcome_block] at h
  obtain ⟨consts, mid, hconsts, h⟩ := andThen_eq_ok_iff.1 h
  obtain ⟨vars, mid', hvars, h⟩ := andThen_eq_ok_iff.1 h
  obtain ⟨ps, mid'', hps, h⟩ := andThen_eq_ok_iff.1 h
  obtain ⟨body, mid''', hbody, h⟩ := andThen_eq_ok_iff.1 h
  cases h
  have hle := length_le_of_outcomeOpt hconsts
  have hle' := length_le_of_outcomeOpt hvars
  obtain ⟨hprocs, hps⟩ := spells_procedures hps
  obtain ⟨hfilled, hs⟩ := spells_statement hbody
  refine ⟨⟨hprocs, hfilled⟩, (spells_declarations constDecl_eq_ok_iff.1 hconsts).append ?_⟩
  exact (spells_declarations ident_eq_ok_iff.1 hvars).append (hps.append hs)
termination_by 2 * ts.length + 1

/-- Each procedure takes its header, its block and the semicolon behind it. -/
theorem spells_procedures {ts rest : List Token} {ps : List Procedure}
    (h : outcomeOpt (procedures ts) = .ok (ps, rest)) :
    Procedure.FilledAll ps ∧ Spells (Procedure.terminalsOf ps) ts rest := by
  cases ts with
  | nil =>
    rw [outcome_procedures_nil] at h
    cases h
    exact ⟨trivial, spells_nil.2 rfl⟩
  | cons t ts =>
    rw [outcome_procedures_cons] at h
    split at h
    · rename_i hk
      obtain ⟨x, mid, hx, h⟩ := andThen_eq_ok_iff.1 h
      obtain ⟨b, mid', hb, h⟩ := andThen_eq_ok_iff.1 h
      obtain ⟨u, mid'', rfl, hu, h⟩ := expect_bind_eq_ok_iff.1 h
      obtain ⟨qs, mid''', hqs, h⟩ := andThen_eq_ok_iff.1 h
      cases h
      have hlt := length_lt_of_outcome hx
      have hle := length_le_of_outcomeOpt hb
      rw [List.length_cons] at hle
      obtain ⟨hblock, hbs⟩ := spells_block hb
      obtain ⟨hall, hqs⟩ := spells_procedures hqs
      have hp : Spells (Procedure.terminals (.mk x b)) (t :: ts) mid'' :=
        .cons (matches_keyword.2 hk) ((procedureName_eq_ok_iff.1 hx).append
          (hbs.append (.single (matches_mark.2 hu))))
      exact ⟨⟨hblock, hall⟩, hp.append hqs⟩
    · cases h
      exact ⟨trivial, spells_nil.2 rfl⟩
termination_by 2 * ts.length
decreasing_by all_goals (subst_vars; simp only [List.length_cons] at *; omega)

end

/-- **A program that is read has been written**, by all of the tokens. -/
theorem writtenBy_of_ofTokens {p : Program} (h : Program.ofTokens ts = .ok p) :
    p.block.Filled ∧ p.WrittenBy ts := by
  rw [ofTokens_eq] at h
  obtain ⟨b, mid, hb, h⟩ := andThen_eq_ok_iff.1 h
  obtain ⟨t, mid', rfl, ht, h⟩ := expect_bind_eq_ok_iff.1 h
  -- No token stands behind the dot, so the pieces add up to the whole list.
  cases mid' with
  | nil =>
    cases h
    obtain ⟨hfilled, hs⟩ := spells_block hb
    exact ⟨hfilled, spells_all_iff.1 (hs.append (.single (matches_mark.2 ht)))⟩
  | cons u mid' => cases h

end PL0.Grammar
