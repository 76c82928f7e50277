import Mathlib
import PL0.Proofs.Grammar.Derivation
import PL0.Proofs.Grammar.LocalReaders

/-!
# `Grammar.Diagnosis` — syntax errors are found at the first impossible token

Tokens are viable if some program starts with them. Reading fails at the first token that no program
has behind those before it, with one exception: an identifier where a statement may start is left
alone where `:=` does not follow it, and it is then reported in place of the token behind it.

A reader that leaves a statement empty or a list as it is does not look at what may follow there, so
the failure comes up several readers later. No token has been passed by then, which is what makes the
tokens passed and those in front of the reader the right ones to speak of (`Halts`).

Main statement: `ofTokens_diagnosis`.
-/

namespace PL0.Program

open Grammar

variable {ts us front back : List Token} {t u : Token} {e : SyntaxError} {p : Program}

/-- Some program starts with these tokens. -/
def Viable (ts : List Token) : Prop := ∃ us p, ofTokens (ts ++ us) = .ok p

/-- A statement may start behind these tokens, whichever it is. -/
def OpensStatement (ts : List Token) : Prop :=
  ∀ (s : Statement) (us : List Token), s.Filled → List.Forall₂ Terminal.Matches s.terminals us →
    Viable (ts ++ us)

theorem Viable.of_append (h : Viable (ts ++ us)) : Viable ts := by
  obtain ⟨vs, p, hp⟩ := h
  exact ⟨us ++ vs, p, by rwa [← List.append_assoc]⟩

theorem exists_matches {ss : List Terminal} (h : List.Forall₂ Terminal.Matches ss ts)
    (ht : t ∈ ts) : ∃ s : Terminal, s.Matches t := by
  induction h with
  | nil => cases ht
  | cons hu _ ih =>
    rcases List.mem_cons.1 ht with rfl | ht
    · exact ⟨_, hu⟩
    · exact ih ht

/-- No program has a number whose text denotes no word. -/
theorem not_viable_of_mem (ht : t ∈ ts) (hill : t.IllNumber) : ¬ Viable ts := by
  rintro ⟨us, p, hp⟩
  obtain ⟨-, hwritten⟩ := ofTokens_eq_ok_iff.1 hp
  obtain ⟨hkind, hnone⟩ := hill
  obtain ⟨s, hs⟩ := exists_matches hwritten (List.mem_append_left us ht)
  have hsk : s.kind = .number := hs.1.symm.trans hkind
  cases s with
  | number n => exact absurd (hnone.symm.trans (Terminal.matches_number.1 hs).2.1) nofun
  | mark m => cases hsk
  | keyword k => cases hsk
  | name x => cases hsk

/-! ## Where reading stops -/

theorem ofTokens_eq_closed (ts : List Token) : ofTokens ts = (do
    let (p, rest) ← closed ts
    match rest with
    | [] => return p
    | t :: _ => throw ⟨some t, .trailingInput⟩) := by
  rw [ofTokens_eq]
  unfold closed
  cases outcomeOpt (Grammar.block ts) with
  | error e => rfl
  | ok q =>
    obtain ⟨b, rest⟩ := q
    show (outcome (expect (.mark .dot) rest) >>= _) =
      ((outcome (expect (.mark .dot) rest) >>= _) >>= _)
    cases outcome (expect (.mark .dot) rest) <;> rfl

/-- Whatever stands behind a program is reported. -/
theorem ofTokens_append (h : ofTokens ts = .ok p) (t : Token) (us : List Token) :
    ofTokens (ts ++ t :: us) = .error ⟨some t, .trailingInput⟩ := by
  rw [ofTokens_eq] at h
  obtain ⟨b, mid, hb, h⟩ := andThen_eq_ok_iff.1 h
  obtain ⟨d, rest, rfl, hd, h⟩ := expect_bind_eq_ok_iff.1 h
  cases rest with
  | cons u rest => cases h
  | nil =>
    obtain ⟨front, rfl, -, hs⟩ := (local_block ts).ok hb
    have hresembles : Resembles [d] (d :: t :: us) := by
      refine ⟨rfl, fun hident => ?_⟩
      rw [show [d].head?.map Token.kind = some d.kind from rfl, hd] at hident
      cases hident
    have hblock := hs.resembles _ hresembles
    rw [ofTokens_eq, List.append_assoc]
    show outcomeOpt (Grammar.block (front ++ d :: t :: us)) >>= _ = _
    rw [hblock]
    show outcome (expect (.mark .dot) (d :: t :: us)) >>= _ = _
    rw [outcome_expect_cons, if_pos hd]
    rfl

/-- Reading has passed the tokens `front`, with which some program starts, and stops in front of
    `back`, whatever else is there that resembles `back`. -/
structure Halts (front back : List Token) (e : SyntaxError) : Prop where
  found : e.found = back.head?
  viable : Viable front
  wanted {k : Kind} : e.cause.wanted = some k → ∃ t, t.kind = k ∧ Viable (front ++ [t])
  ill : e.cause = .invalidNumber → IllNumbered back
  trailing : e.cause = .trailingInput → back ≠ [] ∧ ∃ p, ofTokens front = .ok p
  resembles {b : List Token} : Resembles back b → (e.cause = .invalidNumber → IllNumbered b) →
    ofTokens (front ++ b) = .error ⟨b.head?, e.cause⟩
  sameHead {b : List Token} : SameHead back b → (e.cause = .invalidNumber → IllNumbered b) →
    ofTokens (front ++ b) = .error ⟨b.head?, e.cause⟩ ∨ OpensStatement front

theorem exists_halts (h : ofTokens ts = .error e) :
    ∃ front back, ts = front ++ back ∧ Halts front back e := by
  cases hc : closed ts with
  | error e' =>
    have he : e' = e := by
      rw [ofTokens_eq_closed, hc] at h
      cases h
      rfl
    obtain ⟨front, back, rfl, hstops⟩ := (local_closed ts).error (he ▸ hc)
    obtain ⟨k, us, p, hk, hus, hp⟩ := hstops.wanted
    have hopens (ha : AdmitsStatement (fun p us => ofTokens us = .ok p) front) :
        OpensStatement front := fun s us hs hus => ha s us hs hus
    have herror {b : List Token} (hb : closed (front ++ b) = .error ⟨b.head?, e.cause⟩) :
        ofTokens (front ++ b) = .error ⟨b.head?, e.cause⟩ := by
      rw [ofTokens_eq_closed, hb]
      rfl
    refine ⟨front, back, rfl, hstops.found, ⟨us, p, hp⟩, ?_, hstops.ill, ?_,
      fun hb hill => herror (hstops.steady.resembles _ hb hill),
      fun hb hill => (hstops.steady.sameHead _ hb).imp (fun h => herror (h hill)) hopens⟩
    · intro k' hk'
      cases hk.symm.trans hk'
      cases us with
      | nil => cases hus
      | cons u us =>
        exact ⟨u, Option.some.inj hus, us, p, by rwa [List.append_assoc]⟩
    · intro htrailing
      rw [htrailing] at hk
      cases hk
  | ok q =>
    obtain ⟨p, rest⟩ := q
    rw [ofTokens_eq_closed, hc] at h
    cases rest with
    | nil => cases h
    | cons t rest =>
      cases h
      obtain ⟨front, rfl, hp, -⟩ := (local_closed ts).ok hc
      have herror {b : List Token} (hb : SameHead (t :: rest) b) :
          ofTokens (front ++ b) = .error ⟨b.head?, .trailingInput⟩ := by
        obtain ⟨u, us, rfl, -⟩ := hb.exists_cons
        exact ofTokens_append hp u us
      exact ⟨front, t :: rest, rfl, rfl, ⟨[], p, by rwa [List.append_nil]⟩, nofun, nofun,
        fun _ => ⟨nofun, p, hp⟩, fun hb _ => herror hb.head, fun hb _ => .inl (herror hb)⟩

/-! ## The report -/

/-- The token behind the first `k` is an identifier where a statement may start, and it is left alone
    because `:=` does not follow it. It is the token behind it, if there is one, that no program
    has. -/
structure Unassigned (ts : List Token) (k : Nat) : Prop where
  identifier : ts[k]?.map Token.kind = some .identifier
  opens : OpensStatement (ts.take k)
  unassigned : ts[k + 1]?.map Token.kind ≠ some (.mark .assign)
  impossible : ts.length < k + 2 ∨ ¬ Viable (ts.take (k + 2))

/-- What the error `e` says of the tokens `ts`, of which it has passed the first `k`. -/
structure Diagnosis (ts : List Token) (e : SyntaxError) (k : Nat) : Prop where
  within : k ≤ ts.length
  found : e.found = ts[k]?
  atEnd : e.found = none ↔ k = ts.length
  viable : Viable (ts.take k)
  /-- Where nothing is left the tokens are too few. -/
  incomplete : k = ts.length → Viable ts ∧ ∀ p, ofTokens ts ≠ .ok p
  /-- Otherwise the token found is impossible, or stands in for the one behind it. -/
  impossible : k < ts.length → ¬ Viable (ts.take (k + 1)) ∨ Unassigned ts k
  /-- A token of the kind that the error asks for would have been possible. -/
  wanted {κ : Kind} : e.cause.wanted = some κ → ∃ t, t.kind = κ ∧ Viable (ts.take k ++ [t])
  /-- A number whose text denotes no word is impossible. It is found, as such, where another number
      would have been possible, -/
  numbers {j : Nat} {t : Token} : ts[j]? = some t → t.IllNumber → k ≤ j ∧
    ¬ Viable (ts.take (j + 1)) ∧
    ((∃ u, u.kind = .number ∧ Viable (ts.take j ++ [u])) → j = k ∧ e.cause = .invalidNumber)
  /-- and only then are numbers found to be invalid. -/
  invalid : e.cause = .invalidNumber → ∃ t, ts[k]? = some t ∧ t.IllNumber
  /-- What follows a program is found as such, -/
  behind {j : Nat} : j < ts.length → (∃ p, ofTokens (ts.take j) = .ok p) →
    j = k ∧ e.cause = .trailingInput
  /-- and nothing else is. -/
  trailing : e.cause = .trailingInput → k < ts.length ∧ ∃ p, ofTokens (ts.take k) = .ok p

theorem Halts.ofTokens_eq (h : Halts front back e) : ofTokens (front ++ back) = .error e := by
  rw [h.resembles ⟨rfl, fun _ => id⟩ h.ill, ← h.found]

/-- No program goes on with anything that resembles the tokens in front of which reading stops. -/
theorem Halts.not_resembles {b : List Token} (h : Halts front back e)
    (hp : ofTokens (front ++ b) = .ok p) (hill : e.cause = .invalidNumber → IllNumbered b) :
    ¬ Resembles back b := by
  intro hb
  cases hp.symm.trans (h.resembles hb hill)

/-- Where there is a program, reading stops behind it. -/
theorem Halts.of_program {j : Nat} (h : Halts front back e) (hj : j < (front ++ back).length)
    (hp : ofTokens ((front ++ back).take j) = .ok p) :
    j = front.length ∧ e.cause = .trailingInput := by
  have happend {ts : List Token} {i : Nat} {p : Program} (hi : i < ts.length)
      (hp : ofTokens (ts.take i) = .ok p) :
      ofTokens ts = .error ⟨some ts[i], .trailingInput⟩ := by
    have := ofTokens_append hp ts[i] (ts.drop (i + 1))
    rwa [← List.drop_eq_getElem_cons hi, List.take_append_drop] at this
  have hcause : e.cause = .trailingInput := by
    have := happend hj hp
    rw [h.ofTokens_eq] at this
    cases this
    rfl
  refine ⟨?_, hcause⟩
  obtain ⟨hne, q, hq⟩ := h.trailing hcause
  -- A program cannot be the front of another one.
  rcases Nat.lt_trichotomy j front.length with hlt | heq | hgt
  · rw [List.take_append_of_le_length (Nat.le_of_lt hlt)] at hp
    cases hq.symm.trans (happend hlt hp)
  · exact heq
  · have hshort : front.length < ((front ++ back).take j).length := by
      rw [List.length_take]
      omega
    have htake : ((front ++ back).take j).take front.length = front := by
      rw [List.take_take, Nat.min_eq_left (Nat.le_of_lt hgt), List.take_left]
    cases hp.symm.trans (happend hshort (htake.symm ▸ hq))

theorem sameHead_replace {d : Nat} (h : back[d]? = some t) (hu : u.kind = t.kind)
    (us : List Token) : SameHead back (back.take d ++ u :: us) := by
  cases back with
  | nil => cases h
  | cons x back =>
    cases d with
    | zero =>
      cases h
      exact congrArg some hu.symm
    | succ d => rfl

/-- A token of the same kind in place of one that is no identifier. -/
theorem resembles_replace {d : Nat} (h : back[d]? = some t) (ht : t.kind ≠ .identifier)
    (hu : u.kind = t.kind) (us : List Token) : Resembles back (back.take d ++ u :: us) := by
  have hhead := sameHead_replace h hu us
  cases back with
  | nil => cases h
  | cons x back =>
    cases d with
    | zero =>
      cases h
      exact hhead.resembles fun hident => ht (Option.some.inj hident)
    | succ d =>
      have hd : back[d]? = some t := h
      have htail := sameHead_replace hd hu us
      show Resembles ([x] ++ back) ([x] ++ (back.take d ++ u :: us))
      exact htail.resembles_append nofun

/-- A number that is none is found where another one would have been possible. -/
theorem Halts.of_illNumber {j : Nat} (h : Halts front back e) (ht : (front ++ back)[j]? = some t)
    (hill : t.IllNumber) (hj : front.length ≤ j) (hu : u.kind = .number)
    (hviable : Viable ((front ++ back).take j ++ [u])) :
    j = front.length ∧ e.cause = .invalidNumber := by
  obtain ⟨us, p, hp⟩ := hviable
  obtain ⟨d, rfl⟩ := Nat.exists_eq_add_of_le hj
  rw [List.getElem?_append_right hj, Nat.add_sub_cancel_left] at ht
  rw [List.take_append, List.take_of_length_le hj, Nat.add_sub_cancel_left, List.append_assoc,
    List.append_assoc] at hp
  have hresembles : Resembles back (back.take d ++ u :: us) :=
    resembles_replace ht (by rw [hill.1]; nofun) (hu.trans hill.1.symm) us
  by_contra hne
  refine h.not_resembles hp ?_ hresembles
  intro hcause
  -- The first token is still the one at which reading has stopped.
  have hd : d ≠ 0 := by
    rintro rfl
    exact hne ⟨rfl, hcause⟩
  obtain ⟨d, rfl⟩ := Nat.exists_eq_succ_of_ne_zero hd
  obtain ⟨v, hv, hill'⟩ := h.ill hcause
  cases back with
  | nil => cases hv
  | cons x back => exact ⟨v, hv, hill'⟩

/-- What stands in front of the reader is impossible, or an identifier left alone. -/
theorem Halts.impossible (h : Halts front back e) (hne : back ≠ []) :
    ¬ Viable ((front ++ back).take (front.length + 1)) ∨
      Unassigned (front ++ back) front.length := by
  obtain ⟨x, back, rfl⟩ := List.exists_cons_of_ne_nil hne
  have hill (us : List Token) (hcause : e.cause = .invalidNumber) : IllNumbered (x :: us) :=
    h.ill hcause
  have htake : (front ++ x :: back).take (front.length + 1) = front ++ [x] :=
    List.take_length_add_append 1
  by_cases hviable : Viable (front ++ [x])
  · obtain ⟨us, p, hp⟩ := hviable
    rw [List.append_assoc] at hp
    have hnot := h.not_resembles hp (hill us)
    have hopens : OpensStatement front :=
      (h.sameHead (b := x :: us) rfl (hill us)).resolve_left fun herror => by
        cases hp.symm.trans herror
    -- The two differ in the second token, or one would resemble the other.
    have hdiffer : x.kind = .identifier ∧ back.head?.map Token.kind ≠ some (.mark .assign) := by
      by_contra hsame
      refine hnot ⟨rfl, fun hident hassign => ?_⟩
      by_contra hback
      exact hsame ⟨Option.some.inj hident, hback⟩
    refine .inr ⟨?_, ?_, ?_, ?_⟩
    · simp [hdiffer.1]
    · rwa [List.take_left]
    · rw [List.getElem?_append_right (Nat.le_add_right _ 1), Nat.add_sub_cancel_left,
        List.getElem?_cons_succ, ← List.head?_eq_getElem?]
      exact hdiffer.2
    · cases back with
      | nil => exact .inl (by simp)
      | cons y back =>
        right
        rintro ⟨vs, q, hq⟩
        rw [List.take_length_add_append, List.append_assoc] at hq
        exact h.not_resembles hq (hill _) ⟨rfl, fun _ => id⟩
  · exact .inl (htake ▸ hviable)

/-- **Syntax errors are reported at the first impossible token.** -/
theorem ofTokens_diagnosis (h : ofTokens ts = .error e) : ∃ k, Diagnosis ts e k := by
  obtain ⟨front, back, rfl, hhalts⟩ := exists_halts h
  have hget : (front ++ back)[front.length]? = back.head? := by
    rw [List.getElem?_append_right (Nat.le_refl _), Nat.sub_self, List.head?_eq_getElem?]
  have htake : (front ++ back).take front.length = front := List.take_left
  have hend : front.length = (front ++ back).length ↔ back = [] := by
    rw [List.length_append, ← List.length_eq_zero_iff]
    omega
  refine ⟨front.length, ?_⟩
  constructor
  · rw [List.length_append]
    omega
  · rw [hget, hhalts.found]
  · rw [hhalts.found, hend, List.head?_eq_none_iff]
  · rw [htake]
    exact hhalts.viable
  · intro hk
    refine ⟨?_, fun p hp => by cases h.symm.trans hp⟩
    rw [hend.1 hk, List.append_nil]
    exact hhalts.viable
  · intro hk
    exact hhalts.impossible fun hnil => Nat.ne_of_lt hk (hend.2 hnil)
  · intro κ hκ
    rw [htake]
    exact hhalts.wanted hκ
  · intro j t ht hill
    have hmem : t ∈ (front ++ back).take (j + 1) := by
      refine List.mem_of_getElem? (i := j) ?_
      rw [List.getElem?_take_of_lt (Nat.lt_succ_self j), ht]
    have hnot : ¬ Viable ((front ++ back).take (j + 1)) := not_viable_of_mem hmem hill
    have hj : front.length ≤ j := by
      by_contra hlt
      have hviable := hhalts.viable
      rw [← List.take_append_drop (j + 1) front] at hviable
      rw [List.take_append_of_le_length (by omega)] at hnot
      exact hnot hviable.of_append
    refine ⟨hj, hnot, ?_⟩
    rintro ⟨u, hu, hviable⟩
    exact hhalts.of_illNumber ht hill hj hu hviable
  · intro hcause
    rw [hget]
    exact hhalts.ill hcause
  · rintro j hj ⟨p, hp⟩
    exact hhalts.of_program hj hp
  · intro hcause
    obtain ⟨hne, p, hp⟩ := hhalts.trailing hcause
    refine ⟨Nat.lt_of_le_of_ne ?_ fun hk => hne (hend.1 hk), p, by rwa [htake]⟩
    rw [List.length_append]
    omega

/-- The tokens of `begin x end .` -/
def stray : List Token :=
  [⟨.keyword .beginKw, 0, "begin"⟩, ⟨.identifier, 6, "x"⟩, ⟨.keyword .endKw, 8, "end"⟩,
    ⟨.mark .dot, 11, "."⟩]

theorem ofTokens_stray :
    ofTokens stray = .error ⟨some ⟨.identifier, 6, "x"⟩, .expected (.keyword .endKw)⟩ := by cbv

/-- `begin x := 1 end .` is a program. -/
theorem viable_stray : Viable (stray.take 2) :=
  ⟨[⟨.mark .assign, 8, ":="⟩, ⟨.number, 11, "1"⟩, ⟨.keyword .endKw, 13, "end"⟩,
    ⟨.mark .dot, 16, "."⟩], ⟨.mk [] [] [] (.block [.assign ⟨"x", 6⟩
      (.mk none (.single (.single (.number ⟨1, 11⟩))))])⟩, by cbv⟩

/-- `x` is reported, though a program may have it: it is the `end` behind it that none has there. -/
theorem stray_diagnosed :
    ofTokens stray = .error ⟨some ⟨.identifier, 6, "x"⟩, .expected (.keyword .endKw)⟩ ∧
      Diagnosis stray ⟨some ⟨.identifier, 6, "x"⟩, .expected (.keyword .endKw)⟩ 1 ∧
      Viable (stray.take 2) := by
  obtain ⟨k, hk⟩ := ofTokens_diagnosis ofTokens_stray
  have honly : ∀ k ≤ 4, some ⟨.identifier, 6, "x"⟩ = stray[k]? → k = 1 := by decide
  have hk₁ : k = 1 := honly k hk.within hk.found
  exact ⟨ofTokens_stray, hk₁ ▸ hk, viable_stray⟩

end PL0.Program
