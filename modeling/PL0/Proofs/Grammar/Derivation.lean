import PL0.Proofs.Grammar.Completeness

/-!
# `Grammar.Derivation` — a program is the only derivation of its tokens

Reading inverts writing. `Grammar.Soundness` and `Grammar.Completeness` together say that the tokens
that are read as a program are those that write it; that there is at most one such program is then
no property of the grammar's rules any more, but of reading being a function.
-/

namespace PL0

variable {ts us : List Token} {p q : Program}

theorem Token.Alike.symm_of_forall₂ (h : List.Forall₂ Token.Alike ts us) :
    List.Forall₂ Token.Alike us ts := by
  induction h with
  | nil => exact .nil
  | cons ht _ ih => exact .cons ht.symm ih

namespace Program

/-- A program is read exactly where it is written. -/
theorem ofTokens_eq_ok_iff : ofTokens ts = .ok p ↔ p.WellFormed ∧ p.WrittenBy ts := by
  constructor
  · intro h
    obtain ⟨hfilled, hwritten⟩ := Grammar.writtenBy_of_ofTokens h
    exact ⟨⟨hfilled, words_of_writtenBy hwritten⟩, hwritten⟩
  · rintro ⟨hp, h⟩
    exact Grammar.ofTokens_of_writtenBy hp.filled h

/-- The rules are unambiguous. -/
theorem WrittenBy.unique (hp : p.WellFormed) (hq : q.WellFormed) (h : p.WrittenBy ts)
    (h' : q.WrittenBy ts) : p = q := by
  have hread := ofTokens_eq_ok_iff.2 ⟨hp, h⟩
  rw [ofTokens_eq_ok_iff.2 ⟨hq, h'⟩] at hread
  cases hread
  rfl

theorem ofTokens_eq_ok_of_alike (h : ofTokens ts = .ok p)
    (hu : List.Forall₂ Token.Alike ts us) : ofTokens us = .ok p := by
  obtain ⟨hp, hwritten⟩ := ofTokens_eq_ok_iff.1 h
  exact ofTokens_eq_ok_iff.2 ⟨hp, hwritten.congr hu⟩

/-- **Reading accepts exactly the grammar and recovers the only derivation.** Tokens are read as `p`
    exactly if `p` is well-formed and each token, the last one included, is what the rules demand in
    its place. So a well-formed tree is read back from its tokens, two trees never share theirs, and
    texts and indices count for identifiers and numbers only. -/
theorem ofTokens_exact :
    (∀ ts p, ofTokens ts = .ok p ↔ p.WellFormed ∧ p.WrittenBy ts) ∧
    (∀ p, p.WellFormed → ofTokens p.tokens = .ok p) ∧
    (∀ ts (p q : Program), p.WellFormed → q.WellFormed → p.WrittenBy ts → q.WrittenBy ts →
      p = q) ∧
    (∀ ts us, List.Forall₂ Token.Alike ts us →
      ∀ p, ofTokens ts = .ok p ↔ ofTokens us = .ok p) := by
  refine ⟨fun ts p => ofTokens_eq_ok_iff, fun p hp => ?_, fun ts p q => WrittenBy.unique,
    fun ts us h p => ⟨fun hp => ?_, fun hp => ?_⟩⟩
  · exact ofTokens_eq_ok_iff.2 ⟨hp, writtenBy_tokens hp⟩
  · exact ofTokens_eq_ok_of_alike hp h
  · exact ofTokens_eq_ok_of_alike hp (Token.Alike.symm_of_forall₂ h)

/-- The program `var x; begin read(x); if odd x then write(x, -2 * x); end .` -/
def parity : Program :=
  let x : Factor := .ident ⟨"x", 4⟩
  ⟨.mk [] [⟨"x", 4⟩] [] (.block [
    .read [⟨"x", 4⟩],
    .ifThen (.odd (.mk none (.single (.single x))))
      (.write [.mk none (.single (.single x)),
        .mk (some .minus) (.single (.join (.single (.number ⟨2, 40⟩)) .mul x))]),
    .empty])⟩

/-- `parity` is well-formed and read back from its tokens, whatever their marks' texts and
    indices. -/
theorem parity_read : parity.WellFormed ∧ ofTokens parity.tokens = .ok parity ∧
    ∀ us, List.Forall₂ Token.Alike parity.tokens us → ofTokens us = .ok parity := by
  have hp : parity.WellFormed := by
    constructor
    · simp [parity, Block.Filled, Procedure.FilledAll, Statement.Filled, Statement.FilledAll]
    · intro n hn
      have hterminals : parity.terminals.filter (fun s => s.kind = .number) =
          [.number ⟨2, 40⟩] := rfl
      have hn' : .number n ∈ parity.terminals.filter (fun s => s.kind = .number) := by
        simp [hn, Terminal.kind]
      rw [hterminals, List.mem_singleton] at hn'
      cases hn'
      decide
  obtain ⟨-, hread, -, halike⟩ := ofTokens_exact
  exact ⟨hp, hread _ hp, fun us h => (halike _ us h parity).1 (hread _ hp)⟩

end Program

end PL0
