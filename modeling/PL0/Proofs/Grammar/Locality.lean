import PL0.Proofs.Grammar.Outcome
import PL0.Proofs.Grammar.Rendering

/-!
# `Grammar.Locality` — how far a reader looks

A reader goes by the kind of the token it stands in front of, and in one place also by the token
behind that one: whether an identifier belongs to a statement depends on a `:=` behind it. So what a
reader does is settled by the tokens that it has passed and by what those in front of it resemble
(`Resembles`), and where that second token counts, a statement may start.

`Local r G ts` says this of the reader `r` on the tokens `ts`, both of its phrases and of its errors,
and of an error that the tokens passed are the front of a phrase of `G` which goes on with a token of
the kind that the error asks for. A reader is put together from others by `Local.bind`, and so is
this fact about it.

Main statement: `Local.bind`.
-/

namespace PL0

/-- A kind of token with which the phrase could have gone on. -/
def SyntaxError.Cause.wanted : SyntaxError.Cause → Option Kind
  | expected k => some k
  | expectedFactor => some .number
  | expectedRelation => some (.mark .equal)
  | trailingInput => none
  | invalidNumber => some .number

/-- A number whose text is no signed numeral that denotes a word. -/
def Token.IllNumber (t : Token) : Prop := t.kind = .number ∧ Decimal.word? t.text = none

namespace Grammar

variable {α β : Type} {ts us front back b b' : List Token} {t : Token} {e : SyntaxError}

/-! ## Tokens that look the same to a reader -/

/-- The tokens start with one of the same kind, or there are none. -/
def SameHead (b b' : List Token) : Prop := b.head?.map Token.kind = b'.head?.map Token.kind

/-- A reader in front of `b'` sees nothing that it would not see in front of `b`: the kind of the
    first token is the same, and no identifier is followed by `:=` that was not. -/
structure Resembles (b b' : List Token) : Prop where
  head : SameHead b b'
  second : b.head?.map Token.kind = some .identifier →
    b'.tail.head?.map Token.kind = some (.mark .assign) →
    b.tail.head?.map Token.kind = some (.mark .assign)

theorem SameHead.eq_nil (h : SameHead [] b) : b = [] := by
  cases b with
  | nil => rfl
  | cons t b => cases h

theorem SameHead.exists_cons (h : SameHead (t :: ts) b) :
    ∃ u us, b = u :: us ∧ u.kind = t.kind := by
  cases b with
  | nil => cases h
  | cons u us => exact ⟨u, us, rfl, (Option.some.inj h).symm⟩

theorem SameHead.append (h : SameHead b b') (front : List Token) :
    SameHead (front ++ b) (front ++ b') := by
  cases front with
  | nil => exact h
  | cons t front => rfl

/-- Behind a token that has been passed, only the next one counts. -/
theorem SameHead.resembles_append (h : SameHead b b') (hne : front ≠ []) :
    Resembles (front ++ b) (front ++ b') := by
  refine ⟨h.append front, ?_⟩
  intro _ hassign
  cases front with
  | nil => exact absurd rfl hne
  | cons t front =>
    have htail : SameHead (front ++ b) (front ++ b') := h.append front
    exact htail.trans hassign

theorem SameHead.resembles (h : SameHead b b')
    (hk : b.head?.map Token.kind ≠ some .identifier) : Resembles b b' :=
  ⟨h, fun hident => absurd hident hk⟩

theorem Resembles.append (h : Resembles b b') (front : List Token) :
    Resembles (front ++ b) (front ++ b') := by
  by_cases hne : front = []
  · rw [hne]
    exact h
  · exact h.head.resembles_append hne

/-- The tokens start with a number whose text denotes no word. -/
def IllNumbered (b : List Token) : Prop := ∃ t ∈ b.head?, t.IllNumber

/-! ## Sets of phrases -/

/-- Which tokens make which phrase. -/
abbrev Phrases (α : Type) := α → List Token → Prop

/-- Any statement may stand behind the tokens `front` in some phrase. -/
def AdmitsStatement (G : Phrases α) (front : List Token) : Prop :=
  ∀ (s : Statement) (us : List Token), s.Filled → List.Forall₂ Terminal.Matches s.terminals us →
    ∃ after x, G x (front ++ us ++ after)

/-- There is a phrase. -/
def Live (G : Phrases α) : Prop := ∃ x us, G x us

/-- The phrases written by the terminals of those trees that satisfy `p`. -/
def Written (p : α → Prop) (terms : α → List Terminal) : Phrases α :=
  fun x us => p x ∧ List.Forall₂ Terminal.Matches (terms x) us

/-- A single token of kind `k`. -/
def Tok (k : Kind) : Phrases Token := fun t us => us = [t] ∧ t.kind = k

/-- Phrases that stand for something else. -/
def Mapped (f : α → β) (G : Phrases α) : Phrases β := fun y us => ∃ x, y = f x ∧ G x us

/-- A phrase and behind it another one, which may depend on it. -/
def Then (G₁ : Phrases α) (G₂ : α → Phrases β) : Phrases β :=
  fun y us => ∃ x us₁ us₂, us = us₁ ++ us₂ ∧ G₁ x us₁ ∧ G₂ x y us₂

variable {G G' : Phrases α} {H : Phrases β} {G₂ : α → Phrases β} {f : α → β}

theorem AdmitsStatement.mono (h : AdmitsStatement G us) (us₁ : List Token)
    (hG : ∀ x vs, G x vs → ∃ y, H y (us₁ ++ vs)) : AdmitsStatement H (us₁ ++ us) := by
  intro s vs hs hvs
  obtain ⟨after, x, hx⟩ := h s vs hs hvs
  obtain ⟨y, hy⟩ := hG x _ hx
  refine ⟨after, y, ?_⟩
  rwa [List.append_assoc, List.append_assoc, ← List.append_assoc us]

/-- What may stand in a phrase may stand in it where another phrase follows. -/
theorem AdmitsStatement.followed (h : AdmitsStatement G us) (hlive : ∀ x, Live (G₂ x)) :
    AdmitsStatement (Then G G₂) us := by
  intro s vs hs hvs
  obtain ⟨after, x, hx⟩ := h s vs hs hvs
  obtain ⟨y, us₂, hy⟩ := hlive x
  exact ⟨after ++ us₂, y, x, _, us₂, (List.append_assoc ..).symm, hx, hy⟩

theorem live_tok (k : Kind) : Live (Tok k) := ⟨⟨k, 0, ""⟩, _, rfl, rfl⟩

theorem live_mapped (h : Live G) : Live (Mapped f G) := by
  obtain ⟨x, us, hx⟩ := h
  exact ⟨f x, us, x, rfl, hx⟩

theorem live_then (h : Live G) (h₂ : ∀ x, Live (G₂ x)) : Live (Then G G₂) := by
  obtain ⟨x, us₁, hx⟩ := h
  obtain ⟨y, us₂, hy⟩ := h₂ x
  exact ⟨y, us₁ ++ us₂, x, us₁, us₂, rfl, hx, hy⟩

/-! ## Local readers -/

/-- A reader's answers without their length proofs. -/
abbrev Reader (α : Type) := List Token → Except SyntaxError (α × List Token)

/-- `P` holds behind the tokens `front` of whatever resembles `b`, and even of what starts alike if a
    statement may not start there. -/
structure Steady (G : Phrases α) (front b : List Token) (P : List Token → Prop) : Prop where
  resembles : ∀ b', Resembles b b' → P b'
  sameHead : ∀ b', SameHead b b' → P b' ∨ AdmitsStatement G front

theorem Steady.of_sameHead {P : List Token → Prop} (h : ∀ b', SameHead b b' → P b') :
    Steady G front b P := ⟨fun b' hb => h b' hb.head, fun b' hb => .inl (h b' hb)⟩

theorem Steady.imp {P Q : List Token → Prop} {front' : List Token} (h : Steady G front b P)
    (hPQ : ∀ b', SameHead b b' → P b' → Q b')
    (hadmits : AdmitsStatement G front → AdmitsStatement H front') : Steady H front' b Q :=
  ⟨fun b' hb => hPQ b' hb.head (h.resembles b' hb),
    fun b' hb => (h.sameHead b' hb).imp (hPQ b' hb) hadmits⟩

/-- What is steady in front of `us₂` and `b` stays so when `us₂` has been passed. -/
theorem Steady.andThen {G₂ : Phrases β} {us₁ us₂ : List Token} {P₁ P₂ : List Token → Prop}
    {γ : Type} {K : Phrases γ} (h₁ : Steady G us₁ (us₂ ++ b) P₁) (h₂ : Steady G₂ us₂ b P₂)
    (hfirst : us₂ = [] → AdmitsStatement G us₁ → AdmitsStatement K (us₁ ++ us₂))
    (hsecond : AdmitsStatement G₂ us₂ → AdmitsStatement K (us₁ ++ us₂)) :
    Steady K (us₁ ++ us₂) b fun b' => P₁ (us₂ ++ b') ∧ P₂ b' := by
  refine ⟨fun b' hb => ⟨h₁.resembles _ (hb.append us₂), h₂.resembles b' hb⟩, ?_⟩
  intro b' hb
  have hP₁ : P₁ (us₂ ++ b') ∨ AdmitsStatement K (us₁ ++ us₂) := by
    by_cases hne : us₂ = []
    · exact (h₁.sameHead _ (hb.append us₂)).imp_right (hfirst hne)
    · exact .inl (h₁.resembles _ (hb.resembles_append hne))
  rcases hP₁ with hP₁ | hadmits
  · exact (h₂.sameHead b' hb).imp (fun hP₂ => ⟨hP₁, hP₂⟩) hsecond
  · exact .inr hadmits

/-- The reader `r` has passed the tokens `front` of a phrase of `G` and stops in front of `back`,
    whatever else is there that resembles `back`. -/
structure Stops (r : Reader α) (G : Phrases α) (front back : List Token) (e : SyntaxError) :
    Prop where
  found : e.found = back.head?
  /-- A phrase goes on here with a token of the kind that the error asks for. -/
  wanted : ∃ k us x, e.cause.wanted = some k ∧ us.head?.map Token.kind = some k ∧
    G x (front ++ us)
  ill : e.cause = .invalidNumber → IllNumbered back
  steady : Steady G front back fun b => (e.cause = .invalidNumber → IllNumbered b) →
    r (front ++ b) = .error ⟨b.head?, e.cause⟩

/-- What the reader `r` answers on the tokens `ts` is settled by the tokens that it passes, the front
    of a phrase of `G`, and by what those behind them resemble. -/
structure Local (r : Reader α) (G : Phrases α) (ts : List Token) : Prop where
  ok {x : α} {rest : List Token} : r ts = .ok (x, rest) → ∃ front, ts = front ++ rest ∧
    G x front ∧ Steady G front rest fun b => r (front ++ b) = .ok (x, b)
  error {e : SyntaxError} : r ts = .error e → ∃ front back, ts = front ++ back ∧
    Stops r G front back e

variable {r r' : Reader α} {a : α}

/-! ### Readers that pass nothing -/

theorem Local.stay (h : ∀ b, SameHead ts b → r b = .ok (a, b)) (hG : G a []) : Local r G ts := by
  constructor
  · intro x rest hr
    cases (h ts rfl).symm.trans hr
    exact ⟨[], rfl, hG, .of_sameHead h⟩
  · intro e hr
    cases (h ts rfl).symm.trans hr

theorem Local.stay_nil (h : r [] = .ok (a, [])) (hG : G a []) : Local r G [] := by
  refine .stay ?_ hG
  intro b hb
  rw [hb.eq_nil, h]

theorem Local.stay_cons (h : ∀ u us, u.kind = t.kind → r (u :: us) = .ok (a, u :: us))
    (hG : G a []) : Local r G (t :: ts) := by
  refine .stay ?_ hG
  intro b hb
  obtain ⟨u, us, rfl, hu⟩ := hb.exists_cons
  exact h u us hu

/-- A reader that stops here because of the second token, where a statement may start. -/
theorem Local.stay_statement (h : ∀ b, Resembles ts b → r b = .ok (a, b)) (hG : G a [])
    (hadmits : AdmitsStatement G []) : Local r G ts := by
  have hts : r ts = .ok (a, ts) := h ts ⟨rfl, fun _ => id⟩
  constructor
  · intro x rest hr
    cases hts.symm.trans hr
    exact ⟨[], rfl, hG, h, fun _ _ => .inr hadmits⟩
  · intro e hr
    cases hts.symm.trans hr

theorem Local.stop (c : SyntaxError.Cause) {k : Kind} {x : α}
    (h : ∀ b, SameHead ts b → (c = .invalidNumber → IllNumbered b) → r b = .error ⟨b.head?, c⟩)
    (hill : c = .invalidNumber → IllNumbered ts) (hwanted : c.wanted = some k)
    (hus : us.head?.map Token.kind = some k) (hG : G x us) : Local r G ts := by
  have hts := h ts rfl hill
  constructor
  · intro x rest hr
    cases hts.symm.trans hr
  · intro e hr
    cases hts.symm.trans hr
    exact ⟨[], ts, rfl, rfl, ⟨k, us, x, hwanted, hus, hG⟩, hill, .of_sameHead h⟩

theorem Local.stop_nil {c : SyntaxError.Cause} {k : Kind} {x : α} (h : r [] = .error ⟨none, c⟩)
    (hc : c ≠ .invalidNumber) (hwanted : c.wanted = some k)
    (hus : us.head?.map Token.kind = some k) (hG : G x us) : Local r G [] := by
  refine .stop c ?_ (fun hill => absurd hill hc) hwanted hus hG
  intro b hb _
  rw [hb.eq_nil, h]
  rfl

theorem Local.stop_cons (c : SyntaxError.Cause) {k : Kind} {x : α}
    (h : ∀ u vs, u.kind = t.kind → r (u :: vs) = .error ⟨some u, c⟩)
    (hc : c ≠ .invalidNumber) (hwanted : c.wanted = some k)
    (hus : us.head?.map Token.kind = some k) (hG : G x us) : Local r G (t :: ts) := by
  refine .stop c ?_ (fun hill => absurd hill hc) hwanted hus hG
  intro b hb _
  obtain ⟨u, vs, rfl, hu⟩ := hb.exists_cons
  exact h u vs hu

/-! ### Readers put together -/

theorem Local.mono {r : Reader α} (h : Local r G ts) (hG : ∀ x us, G x us → G' x us) :
    Local r G' ts := by
  have hadmits (front : List Token) (ha : AdmitsStatement G front) : AdmitsStatement G' front :=
    ha.mono [] fun x us hx => ⟨x, hG x us hx⟩
  constructor
  · intro x rest hr
    obtain ⟨front, rfl, hx, hs⟩ := h.ok hr
    exact ⟨front, rfl, hG x front hx, hs.imp (fun _ _ => id) (hadmits front)⟩
  · intro e hr
    obtain ⟨front, back, rfl, hstops⟩ := h.error hr
    obtain ⟨k, us, x, hk, hus, hx⟩ := hstops.wanted
    exact ⟨front, back, rfl, hstops.found, ⟨k, us, x, hk, hus, hG x _ hx⟩, hstops.ill,
      hstops.steady.imp (fun _ _ => id) (hadmits front)⟩

/-- The reader does what another one does on all tokens that start alike. -/
theorem Local.congr (h : Local r' G ts) (hr : ∀ b, SameHead ts b → r b = r' b) : Local r G ts := by
  constructor
  · intro x rest hx
    obtain ⟨front, rfl, hG, hs⟩ := h.ok ((hr ts rfl).symm.trans hx)
    refine ⟨front, rfl, hG, hs.imp ?_ id⟩
    intro b hb hok
    rwa [hr _ (hb.append front)]
  · intro e he
    obtain ⟨front, back, rfl, hstops⟩ := h.error ((hr ts rfl).symm.trans he)
    refine ⟨front, back, rfl, hstops.found, hstops.wanted, hstops.ill, hstops.steady.imp ?_ id⟩
    intro b hb herror hill
    rw [hr _ (hb.append front)]
    exact herror hill

/-- The reader passes the tokens `us` and does what another one does behind them. -/
theorem Local.behind {r : Reader α} (us : List Token) (hr : ∀ b, r (us ++ b) = r' b)
    (h : Local r' G ts) (hG : ∀ x vs, G x vs → G' x (us ++ vs)) : Local r G' (us ++ ts) := by
  have hadmits (front : List Token) (ha : AdmitsStatement G front) :
      AdmitsStatement G' (us ++ front) := ha.mono us fun x vs hx => ⟨x, hG x vs hx⟩
  constructor
  · intro x rest hx
    obtain ⟨front, rfl, hfront, hs⟩ := h.ok ((hr ts).symm.trans hx)
    refine ⟨us ++ front, (List.append_assoc ..).symm, hG x front hfront,
      hs.imp ?_ (hadmits front)⟩
    intro b _ hok
    rwa [List.append_assoc, hr]
  · intro e he
    obtain ⟨front, back, rfl, hstops⟩ := h.error ((hr ts).symm.trans he)
    obtain ⟨k, vs, x, hk, hvs, hx⟩ := hstops.wanted
    refine ⟨us ++ front, back, (List.append_assoc ..).symm, hstops.found,
      ⟨k, vs, x, hk, hvs, ?_⟩, hstops.ill, hstops.steady.imp ?_ (hadmits front)⟩
    · rw [List.append_assoc]
      exact hG x _ hx
    · intro b _ herror hill
      rw [List.append_assoc, hr]
      exact herror hill

/-- **One reader behind another.** The second one starts where the first has ended, and the kind of
    the token there is all it shares with it. -/
theorem Local.bind {r : Reader α} {f : α × List Token → Except SyntaxError (β × List Token)}
    (h : Local r G ts) (hlive : ∀ x, Live (G₂ x))
    (h₂ : ∀ x rest, r ts = .ok (x, rest) → Local (fun us => f (x, us)) (G₂ x) rest) :
    Local (fun us => r us >>= f) (Then G G₂) ts := by
  constructor
  · intro y rest hr
    obtain ⟨x, mid, hx, hy⟩ := andThen_eq_ok_iff.1 hr
    obtain ⟨us₁, rfl, hG, hs⟩ := h.ok hx
    obtain ⟨us₂, rfl, hG₂, hs₂⟩ := (h₂ x mid hx).ok hy
    refine ⟨us₁ ++ us₂, (List.append_assoc ..).symm, ⟨x, us₁, us₂, rfl, hG, hG₂⟩, ?_⟩
    refine (hs.andThen hs₂ ?_ ?_).imp ?_ id
    · rintro rfl ha
      rw [List.append_nil]
      exact ha.followed hlive
    · exact fun ha => ha.mono us₁ fun z vs hz => ⟨z, x, us₁, vs, rfl, hG, hz⟩
    · rintro b - ⟨hok, hok₂⟩
      rw [List.append_assoc, hok]
      exact hok₂
  · intro e he
    cases hx : r ts with
    | error e' =>
      -- The first reader stops, and the second adds nothing but the end of the phrase.
      have hr : r ts = .error e := by
        rw [hx] at he ⊢
        cases he
        rfl
      obtain ⟨front, back, rfl, hstops⟩ := h.error hr
      obtain ⟨k, us, x, hk, hus, hG⟩ := hstops.wanted
      obtain ⟨y, us₂, hG₂⟩ := hlive x
      refine ⟨front, back, rfl, hstops.found, ⟨k, us ++ us₂, y, hk, ?_, ?_⟩, hstops.ill,
        hstops.steady.imp ?_ fun ha => ha.followed hlive⟩
      · cases us with
        | nil => cases hus
        | cons u us => exact hus
      · exact ⟨x, front ++ us, us₂, (List.append_assoc ..).symm, hG, hG₂⟩
      · intro b _ herror hill
        rw [herror hill]
        rfl
    | ok p =>
      obtain ⟨x, mid⟩ := p
      have he₂ : f (x, mid) = .error e := by
        rw [hx] at he
        exact he
      obtain ⟨us₁, rfl, hG, hs⟩ := h.ok hx
      obtain ⟨front, back, rfl, hstops⟩ := (h₂ x mid hx).error he₂
      obtain ⟨k, us, y, hk, hus, hG₂⟩ := hstops.wanted
      refine ⟨us₁ ++ front, back, (List.append_assoc ..).symm, hstops.found,
        ⟨k, us, y, hk, hus, x, us₁, front ++ us, List.append_assoc .., hG, hG₂⟩, hstops.ill,
        (hs.andThen hstops.steady ?_ ?_).imp ?_ id⟩
      · rintro rfl ha
        rw [List.append_nil]
        exact ha.followed hlive
      · exact fun ha => ha.mono us₁ fun z vs hz => ⟨z, x, us₁, vs, rfl, hG, hz⟩
      · rintro b - ⟨hok, herror⟩ hill
        rw [List.append_assoc, hok]
        exact herror hill

theorem Local.done (a : α) (ts : List Token) :
    Local (fun us => .ok (a, us)) (fun x us => x = a ∧ us = []) ts :=
  .stay (fun _ _ => rfl) ⟨rfl, rfl⟩

/-- The same phrases, taken for something else. -/
theorem Local.map {r : Reader α} {f : α × List Token → Except SyntaxError (β × List Token)}
    (h : Local r G ts) (g : α → β) (hf : ∀ x us, f (x, us) = .ok (g x, us)) :
    Local (fun us => r us >>= f) (Mapped g G) ts := by
  refine (h.bind (fun x => ⟨g x, [], rfl, rfl⟩) fun x rest _ =>
    (Local.done (g x) rest).congr fun us _ => hf x us).mono ?_
  rintro y us ⟨x, us₁, us₂, rfl, hx, rfl, rfl⟩
  exact ⟨x, rfl, (List.append_nil us₁).symm ▸ hx⟩

end Grammar

end PL0
