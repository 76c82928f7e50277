import PL0.Proofs.Grammar.Completeness
import PL0.Proofs.Grammar.Locality

/-!
# `Grammar.LocalReaders` — the readers of the grammar are local

Every reader of the grammar is local, for the phrases that the terminals of a tree write. Most of
them are other readers one behind the other, and the proof says so once more, with a phrase to fill
each place that an error leaves open. What is left are the decisions: to read on or to stop at a
token, which goes by its kind; to take a number, which goes by its text; and to take an identifier
for the start of an assignment, where the token behind it counts.

An error has to come with a phrase that could have been read instead. `Live` says that there is one
at all: every reader has to show a phrase of its own, so that a sequence of readers which fails in one
place can be completed in all places behind it. The number 0 and the
empty statement do for most of them.

Main statement: `local_closed`, for a block and the final dot.
-/

namespace PL0.Grammar

variable {α β : Type} {ts us : List Token} {t : Token}

/-! ## Single tokens

A required token, a name, a number. Here the errors arise; all other readers hand them on. -/

/-- A required token is taken or asked for. Anything of the same kind in front would have been
    treated alike. -/
theorem local_expect (k : Kind) (ts : List Token) :
    Local (fun us => outcome (expect k us)) (Tok k) ts := by
  have hwanted : Tok k ⟨k, 0, ""⟩ [⟨k, 0, ""⟩] := ⟨rfl, rfl⟩
  cases ts with
  | nil =>
    exact .stop_nil (outcome_expect_nil k) nofun rfl rfl hwanted
  | cons t ts =>
    by_cases hk : t.kind = k
    · refine .behind [t] ?_ (Local.done t ts) ?_
      · intro b
        show outcome (expect k (t :: b)) = _
        rw [outcome_expect_cons, if_pos hk]
      · rintro x us ⟨rfl, rfl⟩
        exact ⟨rfl, hk⟩
    · refine .stop_cons (.expected k) ?_ nofun rfl rfl hwanted
      intro u us hu
      rw [outcome_expect_cons, if_neg (by rwa [hu])]

/-- Phrases written by terminals that are all there is to them. -/
abbrev AllWritten (terms : α → List Terminal) : Phrases α := Written (fun _ => True) terms

/-- An identifier is a required token, read as a name. -/
theorem local_ident (ts : List Token) :
    Local (fun us => outcome (ident us)) (AllWritten Ident.terminals) ts := by
  refine Local.congr ?_ fun b _ => outcome_ident b
  refine ((local_expect .identifier ts).map (fun t => ⟨t.text, t.index⟩) fun _ _ => rfl).mono ?_
  rintro x us ⟨t, rfl, rfl, ht⟩
  exact ⟨trivial, .cons ⟨ht, rfl, rfl⟩ .nil⟩

/-- Any name is a phrase. -/
theorem live_ident : Live (AllWritten Ident.terminals) :=
  ⟨⟨"", 0⟩, [⟨.identifier, 0, ""⟩], trivial, .cons ⟨rfl, rfl, rfl⟩ .nil⟩

/-- A number that is a word. -/
def zero : Terminal := .number ⟨0, 0⟩

theorem matches_zero : zero.Matches zero.token := by
  refine Terminal.matches_token ?_
  rintro n ⟨⟩
  decide

theorem outcome_numeral_nil : outcome (numeral []) = .error ⟨none, .expected .number⟩ := by
  rw [outcome_numeral, outcome_expect_nil]
  rfl

/-- Kind first, then value. -/
theorem outcome_numeral_cons (t : Token) (rest : List Token) :
    outcome (numeral (t :: rest)) =
      if t.kind = .number then
        match Decimal.word? t.text with
        | some v => .ok (⟨v, t.index⟩, rest)
        | none => .error ⟨some t, .invalidNumber⟩
      else .error ⟨some t, .expected .number⟩ := by
  rw [outcome_numeral, outcome_expect_cons]
  by_cases hk : t.kind = .number
  · rw [if_pos hk, if_pos hk]
    show (match Decimal.word? t.text with | some v => _ | none => _) = _
    cases Decimal.word? t.text <;> rfl
  · rw [if_neg hk, if_neg hk]
    rfl

/-- The number 0 completes whatever asks for a number, a factor or an expression. -/
theorem written_zero : AllWritten (fun n => [.number n]) (⟨0, 0⟩ : Numeral) [zero.token] :=
  ⟨trivial, .cons matches_zero .nil⟩

theorem live_numeral : Live (AllWritten fun n : Numeral => [.number n]) := ⟨_, _, written_zero⟩

/-- A number that is none is left where it is, though its kind was right. -/
theorem local_numeral (ts : List Token) :
    Local (fun us => outcome (numeral us)) (AllWritten fun n => [.number n]) ts := by
  cases ts with
  | nil =>
    exact .stop_nil outcome_numeral_nil nofun rfl rfl written_zero
  | cons t ts =>
    by_cases hk : t.kind = .number
    · cases hv : Decimal.word? t.text with
      | some v =>
        refine .behind [t] ?_ (Local.done ⟨v, t.index⟩ ts) ?_
        · intro b
          show outcome (numeral (t :: b)) = _
          rw [outcome_numeral_cons, if_pos hk, hv]
        · rintro n us ⟨rfl, rfl⟩
          exact ⟨trivial, .cons (Terminal.matches_number.2 ⟨hk, hv, rfl⟩) .nil⟩
      | none =>
        refine .stop .invalidNumber ?_ (fun _ => ⟨t, rfl, hk, hv⟩) rfl rfl written_zero
        intro b _ hill
        obtain ⟨u, hu, hnumber, hnone⟩ := hill rfl
        cases b with
        | nil => cases hu
        | cons u' us =>
          cases hu
          rw [outcome_numeral_cons, if_pos hnumber, hnone]
          rfl
    · refine .stop_cons (.expected .number) ?_ nofun rfl rfl written_zero
      intro u us hu
      rw [outcome_numeral_cons, if_neg (by rwa [hu])]

/-! ## Lists

A list is its first phrase and what stands behind it; there the next token decides. If it is a comma
the list goes on with another one, by induction, otherwise it stops and the token stays. -/

section
variable {item : (ts : List Token) → Reading α ts} {terms : α → List Terminal}

/-- The phrases behind `x` in a list, with a comma in front of each. -/
def ListedBehind (terms : α → List Terminal) (x : α) : Phrases (List α) := fun xs us =>
  ∃ ys, xs = x :: ys ∧
    List.Forall₂ Terminal.Matches (ys.flatMap fun y => .mark .comma :: terms y) us

/-- Lists of local phrases are local. -/
theorem local_commaSeparated
    (hitem : ∀ ts, Local (fun us => outcome (item us)) (AllWritten terms) ts)
    (ts : List Token) : Local (fun us => outcome (commaSeparated item us))
      (Written (· ≠ []) (Terminal.listed terms)) ts := by
  have hlive (x : α) : Live (ListedBehind terms x) := ⟨[x], [], [], rfl, .nil⟩
  refine Local.congr ?_ fun b _ => outcome_commaSeparated item b
  refine Local.mono ((hitem ts).bind hlive ?_) ?_
  · intro x rest hx
    have hlt := length_lt_of_outcome hx
    cases rest with
    | nil => exact .stay_nil rfl ⟨[], rfl, .nil⟩
    -- Whether `t` is a comma depends on its kind; so a token of the same kind in its place leads
    -- the same way.
    | cons t rest =>
      rw [List.length_cons] at hlt
      by_cases hk : t.kind = .mark .comma
      · refine .behind [t] (fun b => if_pos hk)
          ((local_commaSeparated hitem rest).map (x :: ·) fun _ _ => rfl) ?_
        rintro xs us ⟨ys, rfl, hne, hys⟩
        obtain ⟨y, ys, rfl⟩ := List.exists_cons_of_ne_nil hne
        exact ⟨y :: ys, rfl, .cons (Terminal.matches_mark.2 hk) hys⟩
      · exact .stay_cons (fun u us hu => if_neg (by rwa [hu])) ⟨[], rfl, .nil⟩
  · rintro xs us ⟨x, us₁, us₂, rfl, hx, ys, rfl, hys⟩
    exact ⟨nofun, List.rel_append hx.2 hys⟩
termination_by ts.length
decreasing_by all_goals (subst_vars; simp only [List.length_cons] at *; omega)

theorem live_listed (h : Live (AllWritten terms)) :
    Live (Written (· ≠ []) (Terminal.listed terms)) := by
  obtain ⟨x, us, -, hx⟩ := h
  exact ⟨[x], us, nofun, by simpa [Terminal.listed] using hx⟩

/-- Three readers one behind the other: a parenthesis, a list, a parenthesis. -/
theorem local_parenthesized
    (hitem : ∀ ts, Local (fun us => outcome (item us)) (AllWritten terms) ts)
    (hlive : Live (AllWritten terms)) (ts : List Token) :
    Local (fun us => outcome (parenthesized item us))
      (Written (· ≠ []) (Terminal.grouped terms)) ts := by
  refine Local.congr ?_ fun b _ => outcome_parenthesized item b
  refine Local.mono ((local_expect _ ts).bind ?_ fun t rest ht =>
    (local_commaSeparated hitem rest).bind ?_ fun xs rest' hxs =>
      (local_expect _ rest').map (fun _ => xs) fun _ _ => rfl) ?_
  · exact fun _ => live_then (live_listed hlive) fun _ => live_mapped (live_tok _)
  · exact fun _ => live_mapped (live_tok _)
  · rintro xs us ⟨t, _, us₂, rfl, ⟨rfl, ht⟩, xs', us₁, _, rfl, ⟨hne, hxs⟩, u, rfl, rfl, hu⟩
    exact ⟨hne, .cons (Terminal.matches_mark.2 ht)
      (List.rel_append hxs (.cons (Terminal.matches_mark.2 hu) .nil))⟩

/-- A section of declarations begins with its word or is missing, which the next token tells. -/
theorem local_declarations (k : Keyword)
    (hitem : ∀ ts, Local (fun us => outcome (item us)) (AllWritten terms) ts)
    (ts : List Token) : Local (fun us => outcomeOpt (declarations k item us))
      (AllWritten (Terminal.declared k terms)) ts := by
  cases ts with
  | nil => exact .stay_nil (outcome_declarations_nil k item) ⟨trivial, .nil⟩
  | cons t ts =>
    by_cases hk : t.kind = .keyword k
    · refine .behind [t] (fun b => (outcome_declarations_cons k item t b).trans (if_pos hk))
        ((local_commaSeparated hitem ts).bind (fun _ => live_mapped (live_tok _))
          fun xs rest _ => (local_expect _ rest).map (fun _ => xs) fun _ _ => rfl) ?_
      rintro xs us ⟨xs', us₁, _, rfl, ⟨hne, hxs⟩, u, rfl, rfl, hu⟩
      obtain ⟨x, xs, rfl⟩ := List.exists_cons_of_ne_nil hne
      exact ⟨trivial, .cons (Terminal.matches_keyword.2 hk)
        (List.rel_append hxs (.cons (Terminal.matches_mark.2 hu) .nil))⟩
    · refine .stay_cons (a := []) ?_ ⟨trivial, .nil⟩
      intro u us hu
      rw [outcome_declarations_cons, if_neg (by rwa [hu])]

end

/-! ## Expressions

The induction is that of the readers themselves. An expression that fails asks for a factor in the
end, and 0 is one. -/

/-- Tokens of the same kind are the same sign, or none. -/
theorem sign?_congr {t u : Token} (h : t.kind = u.kind) : sign? t = sign? u := by
  unfold sign?
  rw [h]

theorem relation?_congr {t u : Token} (h : t.kind = u.kind) : relation? t = relation? u := by
  unfold relation?
  rw [h]

theorem live_expr : Live (AllWritten Expr.terminals) :=
  ⟨.mk none (.single (.single (.number ⟨0, 0⟩))), [zero.token], written_zero⟩

/-- What may be read behind a part of a chain that `terms` write. -/
def Onward (terms : α → List Terminal) (left : α) : Phrases α := fun e us =>
  ∃ more, terms e = terms left ++ more ∧ List.Forall₂ Terminal.Matches more us

theorem live_onward (terms : α → List Terminal) (left : α) : Live (Onward terms left) :=
  ⟨left, [], [], (List.append_nil _).symm, .nil⟩

/-- What follows in a chain is read locally if its items are. -/
theorem local_chain {γ ι ω : Type} {more : γ → Reader γ} {item : Reader ι} {join : γ → ω → ι → γ}
    {terms : γ → List Terminal} {itemTerms : ι → List Terminal} {op? : Token → Option ω}
    {mark : ω → Mark} (hchain : ChainReader more item join terms itemTerms op? mark)
    (ts : List Token)
    (hitem : ∀ us, us.length < ts.length → Local item (AllWritten itemTerms) us) (left : γ) :
    Local (more left) (Onward terms left) ts := by
  have hstop : Onward terms left left [] := ⟨[], (List.append_nil _).symm, .nil⟩
  cases ts with
  | nil => exact .stay_nil (hchain.nil left) hstop
  | cons t ts =>
    cases ht : op? t with
    | some op =>
      refine .behind [t] (hchain.go ht) ((hitem ts (Nat.lt_succ_self _)).bind
        (fun right => live_onward terms (join left op right)) fun right rest hright => ?_) ?_
      · have hlt := hchain.shorter hright
        refine (local_chain hchain rest ?_ (join left op right)).congr fun _ _ => bind_eta _
        intro us hus
        exact hitem us (by rw [List.length_cons]; omega)
      · rintro e us ⟨right, us₁, us₂, rfl, hright, more, hmore, hus⟩
        refine ⟨.mark (mark op) :: (itemTerms right ++ more), ?_, ?_⟩
        · rw [hmore, hchain.join, List.append_assoc, List.cons_append]
        · exact .cons (Terminal.matches_mark.2 (hchain.op.1 ht)) (List.rel_append hright.2 hus)
    | none =>
      refine .stay_cons ?_ hstop
      intro u us hu
      -- A token of the same kind as `t` is no operator either.
      have hnoOp : op? u = none := by
        cases h : op? u with
        | none => rfl
        | some op => exact absurd (hchain.op.2 (hu ▸ hchain.op.1 h)) (by simp [ht])
      exact hchain.stop hnoOp us
termination_by ts.length
decreasing_by all_goals (subst_vars; simp only [List.length_cons] at *; omega)

mutual

/-- Expressions are read locally. If no sign is in front, the first token is left to the first
    term. -/
theorem local_expr (ts : List Token) :
    Local (fun us => outcome (expr us)) (AllWritten Expr.terminals) ts := by
  cases ts with
  | nil =>
    have hzero : AllWritten Expr.terminals (.mk none (.single (.single (.number ⟨0, 0⟩))))
        [zero.token] := written_zero
    exact .stop_nil outcome_expr_nil nofun rfl rfl hzero
  | cons t ts =>
    cases hs : sign? t with
    | some s =>
      have hr (b : List Token) : outcome (expr (t :: b)) = (do
          let (e, rest) ← outcome (terms b)
          return (.mk (some s) e, rest)) := by
        rw [outcome_expr_cons, hs]
        rfl
      refine .behind [t] hr ((local_terms ts).map (.mk (some s)) fun _ _ => rfl) ?_
      rintro e us ⟨e, rfl, -, he⟩
      exact ⟨trivial, .cons (Terminal.matches_mark.2 (sign?_eq_some_iff.1 hs)) he⟩
    | none =>
      have hr (b : List Token) (hb : SameHead (t :: ts) b) : outcome (expr b) = (do
          let (e, rest) ← outcome (terms b)
          return (.mk none e, rest)) := by
        obtain ⟨u, us, rfl, hu⟩ := hb.exists_cons
        rw [outcome_expr_cons, sign?_congr hu, hs]
        rfl
      refine Local.congr (((local_terms (t :: ts)).map (.mk none) fun _ _ => rfl).mono ?_) hr
      rintro e us ⟨e, rfl, -, he⟩
      exact ⟨trivial, he⟩
termination_by 5 * ts.length + 4
decreasing_by all_goals (subst_vars; simp only [List.length_cons] at *; omega)

/-- A sum is its first term, and a chain behind it. -/
theorem local_terms (ts : List Token) :
    Local (fun us => outcome (terms us)) (AllWritten Terms.terminals) ts := by
  refine Local.congr ?_ fun b _ => outcome_terms b
  refine Local.mono ((local_term ts).bind
    (fun t => live_onward Terms.terminals (.single t)) fun t rest ht => ?_) ?_
  · have hlt := length_lt_of_outcome ht
    refine (local_chain chainReader_terms rest ?_ (.single t)).congr fun _ _ => bind_eta _
    intro us hus
    exact local_term us
  · rintro e us ⟨t, us₁, us₂, rfl, ht, more, hmore, hus⟩
    refine ⟨trivial, ?_⟩
    rw [hmore]
    exact List.rel_append ht.2 hus
termination_by 5 * ts.length + 3

/-- A product is its first factor, and a chain behind it. -/
theorem local_term (ts : List Token) :
    Local (fun us => outcome (term us)) (AllWritten Term.terminals) ts := by
  refine Local.congr ?_ fun b _ => outcome_term b
  refine Local.mono ((local_factor ts).bind
    (fun f => live_onward Term.terminals (.single f)) fun f rest hf => ?_) ?_
  · have hlt := length_lt_of_outcome hf
    refine (local_chain chainReader_factors rest ?_ (.single f)).congr fun _ _ => bind_eta _
    intro us hus
    exact local_factor us
  · rintro t us ⟨f, us₁, us₂, rfl, hf, more, hmore, hus⟩
    refine ⟨trivial, ?_⟩
    rw [hmore]
    exact List.rel_append hf.2 hus
termination_by 5 * ts.length + 2

/-- Factors are read locally. A token that starts none is left in place, and a factor is asked
    for. -/
theorem local_factor (ts : List Token) :
    Local (fun us => outcome (factor us)) (AllWritten Factor.terminals) ts := by
  have hzero : AllWritten Factor.terminals (.number ⟨0, 0⟩) [zero.token] :=
    ⟨trivial, .cons matches_zero .nil⟩
  cases ts with
  | nil => exact .stop_nil outcome_factor_nil nofun rfl rfl hzero
  | cons t ts =>
    -- The cases follow the kinds. For a name or a number the decision is repeated by the reader
    -- that it is left to.
    cases hk : t.kind with
    | mark m =>
      by_cases hm : m = .leftParen
      · subst hm
        have hr (b : List Token) : outcome (factor (t :: b)) = (do
            let (e, rest) ← outcome (expr b)
            let (_, rest') ← outcome (expect (.mark .rightParen) rest)
            return (.group e, rest')) := by
          rw [outcome_factor_cons, hk]
        refine .behind [t] hr ((local_expr ts).bind (fun _ => live_mapped (live_tok _))
          fun e rest _ => (local_expect _ rest).map (fun _ => Factor.group e) fun _ _ => rfl) ?_
        rintro f us ⟨e, us₁, _, rfl, ⟨-, he⟩, u, rfl, rfl, hu⟩
        exact ⟨trivial, .cons (Terminal.matches_mark.2 hk)
          (List.rel_append he (.cons (Terminal.matches_mark.2 hu) .nil))⟩
      · refine .stop_cons .expectedFactor ?_ nofun rfl rfl hzero
        intro u us hu
        rw [outcome_factor_cons, hu, hk]
        cases m <;> first | rfl | exact absurd rfl hm
    | keyword w =>
      refine .stop_cons .expectedFactor ?_ nofun rfl rfl hzero
      intro u us hu
      rw [outcome_factor_cons, hu, hk]
    | identifier =>
      have hr (b : List Token) (hb : SameHead (t :: ts) b) : outcome (factor b) = (do
          let (x, rest) ← outcome (ident b)
          return (.ident x, rest)) := by
        obtain ⟨u, us, rfl, hu⟩ := hb.exists_cons
        rw [outcome_factor_cons, hu, hk]
      refine Local.congr (((local_ident (t :: ts)).map .ident fun _ _ => rfl).mono ?_) hr
      rintro f us ⟨x, rfl, -, hx⟩
      exact ⟨trivial, hx⟩
    | number =>
      have hr (b : List Token) (hb : SameHead (t :: ts) b) : outcome (factor b) = (do
          let (n, rest) ← outcome (numeral b)
          return (.number n, rest)) := by
        obtain ⟨u, us, rfl, hu⟩ := hb.exists_cons
        rw [outcome_factor_cons, hu, hk]
      refine Local.congr (((local_numeral (t :: ts)).map .number fun _ _ => rfl).mono ?_) hr
      rintro f us ⟨n, rfl, -, hn⟩
      exact ⟨trivial, hn⟩
termination_by 5 * ts.length + 1
decreasing_by all_goals (subst_vars; simp only [List.length_cons] at *; omega)

end

/-! ## Conditions -/

/-- A relation is taken or asked for. -/
theorem local_relation (ts : List Token) :
    Local (fun us => outcome (relation us)) (AllWritten fun r => [.mark r.mark]) ts := by
  have hwanted : AllWritten (fun r => [Terminal.mark r.mark]) Relation.eq
      [⟨.mark .equal, 0, ""⟩] := ⟨trivial, .cons (Terminal.matches_mark.2 rfl) .nil⟩
  cases ts with
  | nil => exact .stop_nil outcome_relation_nil nofun rfl rfl hwanted
  | cons t ts =>
    cases hrel : relation? t with
    | some rel =>
      have hr (b : List Token) : outcome (relation (t :: b)) = .ok (rel, b) := by
        rw [outcome_relation_cons, hrel]
      refine .behind [t] hr (Local.done rel ts) ?_
      rintro rel' us ⟨rfl, rfl⟩
      exact ⟨trivial, .cons (Terminal.matches_mark.2 (relation?_eq_some_iff.1 hrel)) .nil⟩
    | none =>
      refine .stop_cons .expectedRelation ?_ nofun rfl rfl hwanted
      intro u us hu
      rw [outcome_relation_cons, relation?_congr hu, hrel]

/-- Three readers one behind the other. -/
theorem local_comparison (ts : List Token) :
    Local (fun us => outcome (comparison us)) (AllWritten Condition.terminals) ts := by
  refine Local.congr ?_ fun b _ => outcome_comparison b
  refine Local.mono ((local_expr ts).bind ?_ fun l rest _ =>
    (local_relation rest).bind ?_ fun r rest' _ =>
      (local_expr rest').map (Condition.compare l r) fun _ _ => rfl) ?_
  · intro l
    exact live_then ⟨.eq, [⟨.mark .equal, 0, ""⟩], trivial,
      .cons (Terminal.matches_mark.2 rfl) .nil⟩ fun _ => live_mapped live_expr
  · exact fun _ => live_mapped live_expr
  · rintro c us ⟨l, us₁, _, rfl, ⟨-, hl⟩, r, us₂, us₃, rfl, ⟨-, hr⟩, e, rfl, -, he⟩
    exact ⟨trivial, List.rel_append hl (List.rel_append hr he)⟩

/-- Whether `odd` is in front goes by the kind of the token. -/
theorem local_condition (ts : List Token) :
    Local (fun us => outcome (condition us)) (AllWritten Condition.terminals) ts := by
  cases ts with
  | nil =>
    refine (local_comparison []).congr ?_
    intro b hb
    rw [hb.eq_nil, outcome_condition_nil]
  | cons t ts =>
    by_cases hk : t.kind = .keyword .oddKw
    · refine .behind [t] (fun b => (outcome_condition_cons t b).trans (if_pos hk))
        ((local_expr ts).map .odd fun _ _ => rfl) ?_
      rintro c us ⟨e, rfl, -, he⟩
      exact ⟨trivial, .cons (Terminal.matches_keyword.2 hk) he⟩
    · refine (local_comparison (t :: ts)).congr ?_
      intro b hb
      obtain ⟨u, us, rfl, hu⟩ := hb.exists_cons
      rw [outcome_condition_cons, if_neg (by rwa [hu])]

/-! ## Statements

Any statement may be missing, so no error ever asks for a statement. What is behind the word of a
loop or of an `if` is the same, `local_guarded`. -/

/-- The statements behind `s` in a list, with a semicolon in front of each. -/
def StatementsBehind (s : Statement) : Phrases (List Statement) := fun ss us =>
  ∃ ss', ss = s :: ss' ∧ Statement.FilledAll ss' ∧
    List.Forall₂ Terminal.Matches (Statement.terminalsBehind ss') us

/-- The empty statement completes what ends with a statement. -/
theorem written_empty : Written Statement.Filled Statement.terminals .empty [] := ⟨trivial, .nil⟩

theorem live_statement : Live (Written Statement.Filled Statement.terminals) :=
  ⟨.empty, [], written_empty⟩

/-- Where nothing of a statement has been read yet, any statement may be read. -/
theorem admitsStatement_statement :
    AdmitsStatement (Written Statement.Filled Statement.terminals) [] :=
  fun s us hs hus => ⟨[], s, hs, by rwa [List.append_nil]⟩

/-- The phrases that `f` makes of a condition and a statement, with the word `k` between them. -/
def Guarded (k : Keyword) (f : Condition → Statement → Statement) : Phrases Statement := fun s us =>
  ∃ c body, s = f c body ∧ body.Filled ∧
    List.Forall₂ Terminal.Matches (c.terminals ++ .keyword k :: body.terminals) us

/-- A condition, its word and a statement. The statement is read from fewer tokens, so what is
    assumed of it is an induction hypothesis later on. -/
theorem local_guarded (k : Keyword) (f : Condition → Statement → Statement) (ts : List Token)
    (hbody : ∀ us, us.length < ts.length → Local (fun us => outcomeOpt (statement us))
      (Written Statement.Filled Statement.terminals) us) :
    Local (fun us => do
      let (c, rest) ← outcome (condition us)
      let (_, rest') ← outcome (expect (.keyword k) rest)
      let (body, rest'') ← outcomeOpt (statement rest')
      return (f c body, rest'')) (Guarded k f) ts := by
  refine Local.mono ((local_condition ts).bind ?_ fun c rest hc =>
    (local_expect (.keyword k) rest).bind ?_ fun t rest' ht =>
      (hbody rest' (Nat.lt_trans (length_lt_of_outcome ht) (length_lt_of_outcome hc))).map
        (f c) fun _ _ => rfl) ?_
  · exact fun c => live_then (live_tok _) fun _ => live_mapped live_statement
  · exact fun _ => live_mapped live_statement
  · rintro s us ⟨c, us₁, _, rfl, ⟨-, hc⟩, t, _, us₂, rfl, ⟨rfl, ht⟩, body, rfl, hfilled, hbody⟩
    exact ⟨c, body, rfl, hfilled,
      List.rel_append hc (.cons (Terminal.matches_keyword.2 ht) hbody)⟩

/-- The value of an assignment; the target has been passed. -/
theorem local_assignment (target : Token) (ts : List Token) :
    Local (fun us => outcome (assignment target us))
      (Mapped (.assign ⟨target.text, target.index⟩) (AllWritten Expr.terminals)) ts := by
  refine Local.congr ?_ fun b _ => outcome_assignment target b
  exact (local_expr ts).map _ fun _ _ => rfl

/-- An identifier without the sign of an assignment behind it is left where it is. -/
theorem local_unassigned (ht : t.kind = .identifier) (h : ∀ u ∈ ts.head?, u.kind ≠ .mark .assign) :
    Local (fun us => outcomeOpt (statement us))
      (Written Statement.Filled Statement.terminals) (t :: ts) := by
  refine .stay_statement ?_ written_empty admitsStatement_statement
  intro b hb
  obtain ⟨u, us, rfl, hu⟩ := hb.head.exists_cons
  rw [outcome_statement_cons, hu, ht]
  cases us with
  | nil => rfl
  | cons v us =>
    -- No `:=` may appear behind the identifier where there was none; this is what
    -- `Resembles.second` grants.
    refine if_neg fun hv => ?_
    have hsecond := hb.second (congrArg some ht) (congrArg some hv)
    obtain ⟨w, hw, hassign⟩ := Option.map_eq_some_iff.1 hsecond
    exact h w hw hassign

/-- A statement that an identifier starts is an assignment, or else the empty one. -/
theorem local_named (ht : t.kind = .identifier) (ts : List Token) :
    Local (fun us => outcomeOpt (statement us))
      (Written Statement.Filled Statement.terminals) (t :: ts) := by
  cases ts with
  | nil => exact local_unassigned ht nofun
  | cons u ts =>
    by_cases hu : u.kind = .mark .assign
    · refine .behind [t, u] (fun b => ?_)
        ((local_assignment t ts).congr fun _ _ => bind_eta _) ?_
      · show outcomeOpt (statement (t :: u :: b)) = _
        rw [outcome_statement_cons, ht]
        exact if_pos hu
      · rintro s us ⟨e, rfl, -, he⟩
        exact ⟨trivial, .cons (Terminal.matches_name.2 ⟨ht, rfl⟩)
          (.cons (Terminal.matches_mark.2 hu) he)⟩
    · refine local_unassigned ht ?_
      rintro v ⟨⟩
      exact hu

mutual

/-- **Statements are read locally**, one case for each kind of the first token. The cases without a
    statement stop at once. -/
theorem local_statement (ts : List Token) : Local (fun us => outcomeOpt (statement us))
    (Written Statement.Filled Statement.terminals) ts := by
  cases ts with
  | nil => exact .stay_nil outcome_statement_nil written_empty
  | cons t ts =>
    have hword {k : Keyword} {us : List Token} {ss : List Terminal} (hk : t.kind = .keyword k)
        (h : List.Forall₂ Terminal.Matches ss us) :
        List.Forall₂ Terminal.Matches (.keyword k :: ss) (t :: us) :=
      .cons (Terminal.matches_keyword.2 hk) h
    obtain ⟨kind, index, text⟩ := t
    cases kind with
    | mark m =>
      refine .stay_cons (fun u us hu => ?_) written_empty
      rw [outcome_statement_cons, hu]
    | number =>
      refine .stay_cons (fun u us hu => ?_) written_empty
      rw [outcome_statement_cons, hu]
    | keyword k =>
      cases k with
      | beginKw =>
        refine .behind [_] (outcome_statement_cons _) ((local_statements ts).bind
          (fun _ => live_mapped (live_tok _)) fun ss rest _ =>
            (local_expect _ rest).map (fun _ => Statement.block ss) fun _ _ => rfl) ?_
        rintro s us ⟨ss, us₁, _, rfl, ⟨⟨hne, hfilled⟩, hss⟩, u, rfl, rfl, hu⟩
        exact ⟨⟨hne, hfilled⟩, hword rfl
          (List.rel_append hss (.cons (Terminal.matches_keyword.2 hu) .nil))⟩
      | whileKw =>
        refine .behind [_] (outcome_statement_cons _)
          (local_guarded .doKw .whileDo ts fun us hus => local_statement us) ?_
        rintro s us ⟨c, body, rfl, hfilled, hus⟩
        exact ⟨hfilled, hword rfl hus⟩
      | ifKw =>
        refine .behind [_] (outcome_statement_cons _)
          (local_guarded .thenKw .ifThen ts fun us hus => local_statement us) ?_
        rintro s us ⟨c, body, rfl, hfilled, hus⟩
        exact ⟨hfilled, hword rfl hus⟩
      | readKw =>
        refine .behind [_] (outcome_statement_cons _)
          ((local_parenthesized local_ident live_ident ts).map .read fun _ _ => rfl) ?_
        rintro s us ⟨targets, rfl, hne, hus⟩
        exact ⟨hne, hword rfl hus⟩
      | writeKw =>
        refine .behind [_] (outcome_statement_cons _)
          ((local_parenthesized local_expr live_expr ts).map .write fun _ _ => rfl) ?_
        rintro s us ⟨values, rfl, hne, hus⟩
        exact ⟨hne, hword rfl hus⟩
      | callKw =>
        refine .behind [_] (outcome_statement_cons _)
          ((local_ident ts).map .call fun _ _ => rfl) ?_
        rintro s us ⟨x, rfl, -, hus⟩
        exact ⟨trivial, hword rfl hus⟩
      | _ =>
        refine .stay_cons (fun u us hu => ?_) written_empty
        rw [outcome_statement_cons, hu]
    | identifier => exact local_named rfl ts
termination_by 2 * ts.length
decreasing_by all_goals (subst_vars; simp only [List.length_cons] at *; omega)

/-- Statements with semicolons between, like a list with commas. -/
theorem local_statements (ts : List Token) : Local (fun us => outcomeOpt (statements us))
    (Written (fun ss => ss ≠ [] ∧ Statement.FilledAll ss) Statement.terminalsOf) ts := by
  have hlive (s : Statement) : Live (StatementsBehind s) := ⟨[s], [], [], rfl, trivial, .nil⟩
  refine Local.congr ?_ fun b _ => outcome_statements b
  refine Local.mono ((local_statement ts).bind hlive ?_) ?_
  · intro s rest hs
    have hle := length_le_of_outcomeOpt hs
    cases rest with
    | nil => exact .stay_nil rfl ⟨[], rfl, trivial, .nil⟩
    | cons t rest =>
      by_cases hk : t.kind = .mark .semicolon
      · refine .behind [t] (fun b => if_pos hk)
          ((local_statements rest).map (s :: ·) fun _ _ => rfl) ?_
        rintro ss us ⟨ss', rfl, ⟨hne, hfilled⟩, hss⟩
        obtain ⟨s', ss', rfl⟩ := List.exists_cons_of_ne_nil hne
        exact ⟨s' :: ss', rfl, hfilled, .cons (Terminal.matches_mark.2 hk) hss⟩
      · exact .stay_cons (fun u us hu => if_neg (by rwa [hu])) ⟨[], rfl, trivial, .nil⟩
  · rintro ss us ⟨s, us₁, us₂, rfl, ⟨hs, hus₁⟩, ss', rfl, hss, hus₂⟩
    exact ⟨⟨nofun, hs, hss⟩, List.rel_append hus₁ hus₂⟩
termination_by 2 * ts.length + 1
decreasing_by all_goals (subst_vars; simp only [List.length_cons] at *; omega)

end

/-! ## Blocks

Blocks and procedures contain each other, and the induction goes by the tokens that are left. -/

/-- A name, `=` and a number. -/
theorem local_constDecl (ts : List Token) :
    Local (fun us => outcome (constDecl us)) (AllWritten ConstDecl.terminals) ts := by
  refine Local.congr ?_ fun b _ => outcome_constDecl b
  refine Local.mono ((local_ident ts).bind ?_ fun x rest _ =>
    (local_expect _ rest).bind ?_ fun t rest' _ =>
      (local_numeral rest').map (ConstDecl.mk x) fun _ _ => rfl) ?_
  · exact fun _ => live_then (live_tok _) fun _ => live_mapped live_numeral
  · exact fun _ => live_mapped live_numeral
  · rintro d us ⟨x, us₁, _, rfl, ⟨-, hx⟩, t, _, us₂, rfl, ⟨rfl, ht⟩, n, rfl, -, hn⟩
    exact ⟨trivial, List.rel_append hx (.cons (Terminal.matches_mark.2 ht) hn)⟩

/-- A name and a semicolon. -/
theorem local_procedureName (ts : List Token) : Local (fun us => outcome (procedureName us))
    (AllWritten fun x => [.name x, .mark .semicolon]) ts := by
  refine Local.congr ?_ fun b _ => outcome_procedureName b
  refine Local.mono ((local_ident ts).bind (fun _ => live_mapped (live_tok _)) fun x rest _ =>
    (local_expect _ rest).map (fun _ => x) fun _ _ => rfl) ?_
  rintro x us ⟨x, us₁, _, rfl, ⟨-, hx⟩, t, rfl, rfl, ht⟩
  exact ⟨trivial, List.rel_append hx (.cons (Terminal.matches_mark.2 ht) .nil)⟩

theorem live_declared {terms : α → List Terminal} (k : Keyword) :
    Live (AllWritten (Terminal.declared k terms)) := ⟨[], [], trivial, .nil⟩

theorem live_procedures : Live (Written Procedure.FilledAll Procedure.terminalsOf) :=
  ⟨[], [], trivial, .nil⟩

/-- The block of nothing but an empty statement. -/
theorem live_block : Live (Written Block.Filled Block.terminals) :=
  ⟨.mk [] [] [] .empty, [], ⟨trivial, trivial⟩, .nil⟩

mutual

/-- Four readers one behind the other. Each may read nothing. -/
theorem local_block (ts : List Token) : Local (fun us => outcomeOpt (block us))
    (Written Block.Filled Block.terminals) ts := by
  have hbody (consts vars ps) (rest : List Token) : Local (fun us => do
      let (body, rest') ← outcomeOpt (statement us)
      return (Block.mk consts vars ps body, rest'))
      (Mapped (Block.mk consts vars ps) (Written Statement.Filled Statement.terminals)) rest :=
    (local_statement rest).map _ fun _ _ => rfl
  refine Local.congr ?_ fun b _ => outcome_block b
  refine Local.mono ((local_declarations .constKw local_constDecl ts).bind ?_
    fun consts rest hconsts => (local_declarations .varKw local_ident rest).bind ?_
      fun vars rest' hvars =>
        have hle := length_le_of_outcomeOpt hconsts
        have hle' := length_le_of_outcomeOpt hvars
        (local_procedures rest').bind ?_ fun ps rest'' _ => hbody consts vars ps rest'') ?_
  -- Behind an error in one section, the others are completed with nothing.
  · exact fun _ => live_then (live_declared _) fun _ =>
      live_then live_procedures fun _ => live_mapped live_statement
  · exact fun _ => live_then live_procedures fun _ => live_mapped live_statement
  · exact fun _ => live_mapped live_statement
  · rintro b us ⟨consts, us₁, _, rfl, ⟨-, hconsts⟩, vars, us₂, _, rfl, ⟨-, hvars⟩, ps, us₃, us₄,
      rfl, ⟨hps, hus₃⟩, body, rfl, hbody, hus₄⟩
    exact ⟨⟨hps, hbody⟩, List.rel_append hconsts (List.rel_append hvars
      (List.rel_append hus₃ hus₄))⟩
termination_by 2 * ts.length + 1

/-- Procedures, as long as their word is in front. -/
theorem local_procedures (ts : List Token) : Local (fun us => outcomeOpt (procedures us))
    (Written Procedure.FilledAll Procedure.terminalsOf) ts := by
  cases ts with
  | nil => exact .stay_nil outcome_procedures_nil ⟨trivial, .nil⟩
  | cons t ts =>
    by_cases hk : t.kind = .keyword .procedureKw
    · refine .behind [t] (fun b => (outcome_procedures_cons t b).trans (if_pos hk))
        ((local_procedureName ts).bind ?_ fun x rest hx =>
          have hlt := length_lt_of_outcome hx
          (local_block rest).bind ?_ fun b rest' hb =>
            (local_expect _ rest').bind ?_ fun u rest'' hu =>
              have hle := length_le_of_outcomeOpt hb
              have hlt' := length_lt_of_outcome hu
              (local_procedures rest'').map (Procedure.mk x b :: ·) fun _ _ => rfl) ?_
      · exact fun _ => live_then live_block fun _ => live_then (live_tok _) fun _ =>
          live_mapped live_procedures
      · exact fun _ => live_then (live_tok _) fun _ => live_mapped live_procedures
      · exact fun _ => live_mapped live_procedures
      · rintro ps us ⟨x, us₁, _, rfl, ⟨-, hx⟩, b, us₂, _, rfl, ⟨hfilled, hb⟩, u, _, us₃, rfl,
          ⟨rfl, hu⟩, ps, rfl, hps, hus₃⟩
        have hp : List.Forall₂ Terminal.Matches (Procedure.mk x b).terminals
            (t :: (us₁ ++ (us₂ ++ [u]))) :=
          .cons (Terminal.matches_keyword.2 hk) (List.rel_append hx
            (List.rel_append hb (.cons (Terminal.matches_mark.2 hu) .nil)))
        refine ⟨⟨hfilled, hps⟩, ?_⟩
        show List.Forall₂ _ ((Procedure.mk x b).terminals ++ Procedure.terminalsOf ps) _
        simpa using List.rel_append hp hus₃
    · refine .stay_cons (a := []) ?_ ⟨trivial, .nil⟩
      intro u us hu
      rw [outcome_procedures_cons, if_neg (by rwa [hu])]
termination_by 2 * ts.length
decreasing_by all_goals (subst_vars; simp only [List.length_cons] at *; omega)

end

/-- The block of a program and the final dot. -/
def closed (ts : List Token) : Except SyntaxError (Program × List Token) := do
  let (b, rest) ← outcomeOpt (block ts)
  let (_, rest') ← outcome (expect (.mark .dot) rest)
  return (⟨b⟩, rest')

/-- **Reading a program up to its dot is local**, and what has been passed when it fails is the front
    of a program. -/
theorem local_closed (ts : List Token) :
    Local closed (fun p us => Program.ofTokens us = .ok p) ts := by
  refine Local.mono ((local_block ts).bind (fun _ => live_mapped (live_tok _)) fun b rest _ =>
    (local_expect _ rest).map (fun _ => Program.mk b) fun _ _ => rfl) ?_
  rintro p us ⟨b, us₁, _, rfl, ⟨hfilled, hb⟩, t, rfl, rfl, ht⟩
  exact ofTokens_of_writtenBy hfilled
    (List.rel_append hb (.cons (Terminal.matches_mark.2 ht) .nil))

end PL0.Grammar
