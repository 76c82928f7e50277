import PL0.Proofs.Codegen.Names
import PL0.Proofs.Grammar.Derivation
import PL0.Proofs.Lexer.Spacing

/-!
# `Grammar.Identifiers` — the identifiers of programs that are read from texts

An identifier of a tree is the text of an identifier token, and such a token has at most ten
characters, all of them letters, where a text has been scanned (`Program.admits_of_scan`). The names
of the channels have eleven and twelve.

Main statement: no identifier of a program read from a text is spelled like a channel
(`Program.portFree_of_scan`). Tokens that come from no text may well spell one.
-/

namespace PL0

/-! ## Identifiers are short

The names of the channels are longer than any identifier may be, so the bound on the length rules
them out. -/

/-- A name of at most ten characters is not that of a channel. -/
theorem Ident.ordinary_of_length {x : Ident} (h : x.name.length ≤ 10) : x.Ordinary := by
  constructor
  · intro hr
    rw [hr] at h
    exact absurd h (by decide)
  · intro hw
    rw [hw] at h
    exact absurd h (by decide)

/-! ## Identifiers are written

An identifier occurs in the tree at a place, and its terminal occurs in the terminals at the same
place. So each proof follows the tree down to the place. -/

section

variable {x : Ident} {α : Type} {item : α → List Terminal} {xs : List α} {t : Terminal}

/-- The commas of a list are added to its terminals and take none away. -/
theorem Terminal.mem_listed (h : t ∈ xs.flatMap item) : t ∈ Terminal.listed item xs := by
  cases xs with
  | nil => cases h
  | cons y ys =>
    rw [List.flatMap_cons, List.mem_append] at h
    unfold listed
    rcases h with h | h
    · exact List.mem_append_left _ h
    · obtain ⟨z, hz, hmem⟩ := List.mem_flatMap.1 h
      refine List.mem_append_right _ (List.mem_flatMap.2 ⟨z, hz, ?_⟩)
      exact List.mem_cons_of_mem _ hmem

theorem Terminal.mem_grouped (h : t ∈ xs.flatMap item) : t ∈ Terminal.grouped item xs :=
  List.mem_cons_of_mem _ (List.mem_append_left _ (mem_listed h))

theorem Terminal.mem_declared {k : Keyword} (h : t ∈ xs.flatMap item) :
    t ∈ Terminal.declared k item xs := by
  cases xs with
  | nil => cases h
  | cons y ys => exact List.mem_cons_of_mem _ (List.mem_append_left _ (mem_listed h))

mutual

/-- The identifiers of an expression are among its terminals. -/
theorem Expr.mem_terminals {e : Expr} (h : x ∈ e.idents) : .name x ∈ e.terminals := by
  cases e with
  | mk sign ts =>
    have hts : .name x ∈ ts.terminals := Terms.mem_terminals h
    cases sign with
    | none => exact hts
    | some s => exact List.mem_cons_of_mem _ hts

theorem Terms.mem_terminals {ts : Terms} (h : x ∈ ts.idents) : .name x ∈ ts.terminals := by
  cases ts with
  | single t => exact Term.mem_terminals (t := t) h
  | join left op right =>
    rcases List.mem_append.1 h with h | h
    · exact List.mem_append_left _ (Terms.mem_terminals h)
    · exact List.mem_append_right _ (List.mem_cons_of_mem _ (Term.mem_terminals h))

theorem Term.mem_terminals {t : Term} (h : x ∈ t.idents) : .name x ∈ t.terminals := by
  cases t with
  | single f => exact Factor.mem_terminals (f := f) h
  | join left op right =>
    rcases List.mem_append.1 h with h | h
    · exact List.mem_append_left _ (Term.mem_terminals h)
    · exact List.mem_append_right _ (List.mem_cons_of_mem _ (Factor.mem_terminals h))

theorem Factor.mem_terminals {f : Factor} (h : x ∈ f.idents) : .name x ∈ f.terminals := by
  cases f with
  | ident y =>
    rw [List.mem_singleton.1 h]
    exact List.mem_singleton_self _
  | number n => cases h
  | group e => exact List.mem_cons_of_mem _ (List.mem_append_left _ (Expr.mem_terminals h))

end

/-- The identifiers of a condition are among its terminals. -/
theorem Condition.mem_terminals {c : Condition} (h : x ∈ c.idents) : .name x ∈ c.terminals := by
  cases c with
  | odd e => exact List.mem_cons_of_mem _ (Expr.mem_terminals h)
  | compare left r right =>
    rcases List.mem_append.1 h with h | h
    · exact List.mem_append_left _ (Expr.mem_terminals h)
    · exact List.mem_append_right _ (List.mem_cons_of_mem _ (Expr.mem_terminals h))

/-- The names of a list are among its terminals. -/
theorem Ident.mem_terminals {xs : List Ident} (h : x ∈ xs) :
    .name x ∈ xs.flatMap Ident.terminals :=
  List.mem_flatMap.2 ⟨x, h, List.mem_singleton_self _⟩

mutual

/-- The identifiers of a statement, its targets and callees included, are among its terminals. -/
theorem Statement.mem_terminals {s : Statement} (h : x ∈ s.idents) : .name x ∈ s.terminals := by
  cases s with
  | empty => cases h
  | block body =>
    exact List.mem_cons_of_mem _ (List.mem_append_left _ (Statement.mem_terminalsOf h))
  | read targets =>
    exact List.mem_cons_of_mem _ (Terminal.mem_grouped (Ident.mem_terminals h))
  | write values =>
    obtain ⟨e, he, hx⟩ := List.mem_flatMap.1 h
    have hmem := List.mem_flatMap.2 ⟨e, he, Expr.mem_terminals hx⟩
    exact List.mem_cons_of_mem _ (Terminal.mem_grouped hmem)
  | call y =>
    rw [List.mem_singleton.1 h]
    exact List.mem_cons_of_mem _ (List.mem_singleton_self _)
  | whileDo c body =>
    refine List.mem_cons_of_mem _ ?_
    rcases List.mem_append.1 h with h | h
    · exact List.mem_append_left _ (Condition.mem_terminals h)
    · exact List.mem_append_right _ (List.mem_cons_of_mem _ (Statement.mem_terminals h))
  | assign y e =>
    rcases List.mem_append.1 h with h | h
    · exact List.mem_cons_of_mem _ (List.mem_cons_of_mem _ (Expr.mem_terminals h))
    · rw [List.mem_singleton.1 h]
      exact List.mem_cons_self ..
  | ifThen c body =>
    refine List.mem_cons_of_mem _ ?_
    rcases List.mem_append.1 h with h | h
    · exact List.mem_append_left _ (Condition.mem_terminals h)
    · exact List.mem_append_right _ (List.mem_cons_of_mem _ (Statement.mem_terminals h))

/-- A statement of a list may be the first one, or stand behind a semicolon. -/
theorem Statement.mem_terminalsOf {ss : List Statement} (h : x ∈ Statement.identsOf ss) :
    .name x ∈ Statement.terminalsOf ss := by
  cases ss with
  | nil => cases h
  | cons s ss =>
    rcases List.mem_append.1 h with h | h
    · exact List.mem_append_left _ (Statement.mem_terminals h)
    · exact List.mem_append_right _ (Statement.mem_terminalsBehind h)

theorem Statement.mem_terminalsBehind {ss : List Statement} (h : x ∈ Statement.identsOf ss) :
    .name x ∈ Statement.terminalsBehind ss := by
  cases ss with
  | nil => cases h
  | cons s ss =>
    refine List.mem_cons_of_mem _ ?_
    rcases List.mem_append.1 h with h | h
    · exact List.mem_append_left _ (Statement.mem_terminals h)
    · exact List.mem_append_right _ (Statement.mem_terminalsBehind h)

end

mutual

/-- **Every identifier of a block, declared or used, is one of its terminals.** -/
theorem Block.mem_terminals {b : Block} (h : x ∈ b.idents) : .name x ∈ b.terminals := by
  cases b with
  | mk consts vars ps body =>
    simp only [Block.idents, List.mem_append] at h
    simp only [Block.terminals, List.mem_append]
    rcases h with ((h | h) | h) | h
    · obtain ⟨d, hd, rfl⟩ := List.mem_map.1 h
      exact .inl (Terminal.mem_declared (List.mem_flatMap.2 ⟨d, hd, List.mem_cons_self ..⟩))
    · exact .inr (.inl (Terminal.mem_declared (Ident.mem_terminals h)))
    · exact .inr (.inr (.inl (Procedure.mem_terminalsOf h)))
    · exact .inr (.inr (.inr (Statement.mem_terminals h)))

/-- The name of a procedure is the first terminal behind its word. -/
theorem Procedure.mem_terminals {p : Procedure} (h : x ∈ p.idents) : .name x ∈ p.terminals := by
  cases p with
  | mk y b =>
    refine List.mem_cons_of_mem _ ?_
    rcases List.mem_cons.1 h with rfl | h
    · exact List.mem_cons_self ..
    · refine List.mem_cons_of_mem _ (List.mem_cons_of_mem _ ?_)
      exact List.mem_append_left _ (Block.mem_terminals h)

theorem Procedure.mem_terminalsOf {ps : List Procedure} (h : x ∈ Procedure.identsOf ps) :
    .name x ∈ Procedure.terminalsOf ps := by
  cases ps with
  | nil => cases h
  | cons p ps =>
    rcases List.mem_append.1 h with h | h
    · exact List.mem_append_left _ (Procedure.mem_terminals h)
    · exact List.mem_append_right _ (Procedure.mem_terminalsOf h)

end

end

namespace Program

variable {p : Program} {ts : List Token} {text : String} {x : Ident}

/-- Each identifier of a program is the text of one of its tokens. -/
theorem WrittenBy.exists_token (h : p.WrittenBy ts) (hx : x ∈ p.block.idents) :
    ∃ t ∈ ts, t.kind = .identifier ∧ t.text = x.name := by
  have hmem : .name x ∈ p.terminals := List.mem_append_left _ (Block.mem_terminals hx)
  -- Terminals and tokens correspond place by place.
  obtain ⟨n, hn, hget⟩ := List.getElem_of_mem hmem
  have hn' : n < ts.length := h.length_eq ▸ hn
  have hmatch := h.get hn hn'
  simp only [List.get_eq_getElem, hget, Terminal.matches_name] at hmatch
  obtain ⟨hkind, heq⟩ := hmatch
  exact ⟨ts[n], List.getElem_mem hn', hkind, by rw [heq]⟩

/-- **The identifiers of a program read from a text** are texts that an identifier may have. -/
theorem admits_of_scan (hscan : Lexer.scan text = .ok ts) (hread : ofTokens ts = .ok p)
    (hx : x ∈ p.block.idents) : Kind.identifier.Admits x.name := by
  obtain ⟨-, hwritten⟩ := ofTokens_eq_ok_iff.1 hread
  obtain ⟨t, ht, hkind, hname⟩ := hwritten.exists_token hx
  have hadmits := Lexer.admits_of_scan hscan ht
  rwa [hkind, hname] at hadmits

/-- **A program read from a text does not spell the names of the channels.** -/
theorem portFree_of_scan (hscan : Lexer.scan text = .ok ts) (hread : ofTokens ts = .ok p) :
    p.PortFree := by
  intro x hx
  obtain ⟨⟨-, hlen⟩, -⟩ := admits_of_scan hscan hread hx
  exact Ident.ordinary_of_length hlen

/-- Without a text behind them, tokens may spell a channel. -/
example : ofTokens [⟨.keyword .callKw, 0, "call"⟩, ⟨.identifier, 5, "read_memory"⟩,
      ⟨.mark .dot, 16, "."⟩] = .ok ⟨.mk [] [] [] (.call ⟨"read_memory", 5⟩)⟩ ∧
    ¬ PortFree ⟨.mk [] [] [] (.call ⟨"read_memory", 5⟩)⟩ := ⟨by cbv, by decide⟩

end Program

end PL0
