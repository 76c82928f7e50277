import PL0.Proofs.Lexer.Scanning

/-!
# `Lexer.Spacing` — texts written from lexemes

The lexer read the other way round. A `Piece` is a legal lexeme with the blanks in front of it, and
`Piece.write` writes pieces one behind the other. Scanning finds them again unless a lexeme goes on
into the next one, and `Piece.Fuses` says which do where nothing stands between them: two words, two
numbers, and `<` or `>` in front of a `=`. The mark `:=` is complete and takes no further `=` in.

Main statement: `Lexer.scan_write_iff`, which makes this list of pairs exact. What a lexeme goes on
with is a matter of one character (`Kind.GoesOn`); the induction over the pieces rests on the two
cases of a single lexeme, `lexemes_of_stop` and `lexemes_of_goesOn`. That only legal lexemes can be
found is `Lexer.admits_of_scan`.
-/

namespace PL0

open MaximalMunch

/-! ## Pieces -/

/-- **The texts of a kind.** -/
def Kind.Admits (text : String) : Kind → Prop
  | mark m => text = m.spelling
  | keyword k => text = k.spelling
  | identifier => (IsRun Char.isAlpha text ∧ text.length ≤ 10) ∧ ∀ k : Keyword, text ≠ k.spelling
  | number => IsRun Char.isDigit text ∧ Nat.ofDigitChars 10 text.toList 0 ≤ 2 ^ 63 - 1

/-- The kinds that are written with letters. -/
def Kind.IsWord : Kind → Prop
  | keyword _ | identifier => True
  | mark _ | number => False

/-- Any number of blanks. -/
structure Gap where
  text : String
  blank : ∀ c ∈ text.toList, IsBlank c

/-- A lexeme and the blanks in front of it. -/
structure Piece where
  gap : Gap
  kind : Kind
  text : String
  legal : kind.Admits text

namespace Piece

/-- The text of the pieces one behind the other, with `tail` behind the last one. -/
def write (ps : List Piece) (tail : Gap) : String :=
  String.join (ps.map fun p => p.gap.text ++ p.text) ++ tail.text

/-- The tokens of the pieces, each at the place where it is written; the first character has the
    index `i`. -/
def tokens (i : Nat) : List Piece → List Token
  | [] => []
  | p :: ps =>
    ⟨p.kind, i + p.gap.text.length, p.text⟩ :: tokens (i + p.gap.text.length + p.text.length) ps

/-- **The second lexeme runs into the first** where nothing stands between them. -/
def Fuses (p q : Piece) : Prop :=
  p.kind.IsWord ∧ q.kind.IsWord ∨ p.kind = .number ∧ q.kind = .number ∨
    (p.kind = .mark .less ∨ p.kind = .mark .greater) ∧ q.text.toList.head? = some '='

/-- **Blanks keep apart the lexemes that would run together.** -/
def Separated (ps : List Piece) : Prop := ps.IsChain fun p q => p.Fuses q → q.gap.text ≠ ""

end Piece

/-! ## What lengthens a lexeme -/

/-- A lexeme of the kind goes on with the character. -/
def Kind.GoesOn (c : Char) : Kind → Prop
  | mark m => (m = .less ∨ m = .greater) ∧ c = '='
  | keyword _ | identifier => c.isAlpha
  | number => c.isDigit

theorem Kind.not_goesOn_of_isBlank {k : Kind} {c : Char} (h : IsBlank c) : ¬ k.GoesOn c := by
  have hc : c.isAlpha = false ∧ c.isDigit = false ∧ c ≠ '=' := by
    rcases h with rfl | rfl | rfl <;> decide
  obtain ⟨halpha, hdigit, heq⟩ := hc
  cases k with
  | mark m => exact fun hgo => heq hgo.2
  | keyword k => exact Bool.eq_false_iff.1 halpha
  | identifier => exact Bool.eq_false_iff.1 halpha
  | number => exact Bool.eq_false_iff.1 hdigit

theorem Mark.spelling_ne_nil (m : Mark) : m.spelling.toList ≠ [] := by
  cases m <;> decide

theorem Keyword.isRun_spelling (k : Keyword) : IsRun Char.isAlpha k.spelling := by
  have hall : k.spelling.toList.all Char.isAlpha = true := by cases k <;> rfl
  exact ⟨by cases k <;> decide, List.all_eq_true.1 hall⟩

namespace MaximalMunch

variable {p : Char → Bool} {verdict : List Char → Except LexError.Cause Kind} {start i : Nat}
  {run cs ds : List Char} {c : Char} {text : String} {k : Kind}

theorem lexemes_blanks (h : ∀ c ∈ cs, IsBlank c) (i : Nat) (ds : List Char) :
    lexemes i (cs ++ ds) = lexemes (i + cs.length) ds := by
  induction cs generalizing i with
  | nil => rfl
  | cons c cs ih =>
    rw [List.cons_append, lexemes_blank (h c (List.mem_cons_self ..)),
      ih fun d hd => h d (List.mem_cons_of_mem c hd), List.length_cons]
    congr 1
    omega

/-- A run takes all the characters in that it may. -/
theorem onward_append (h : ∀ c ∈ cs, p c) :
    onward p verdict start run i (cs ++ ds) =
      onward p verdict start (run ++ cs) (i + cs.length) ds := by
  induction cs generalizing run i with
  | nil => simp
  | cons c cs ih =>
    rw [List.cons_append, onward_cons (h c (List.mem_cons_self ..)),
      ih fun d hd => h d (List.mem_cons_of_mem c hd)]
    simp [Nat.add_assoc, Nat.add_comm 1]

/-- A run with a character behind it that it takes in is longer than it was. -/
theorem exists_onward (h : ∃ c ∈ ds.head?, p c) :
    ∃ l ls, onward p verdict start run i ds = l :: ls ∧ run.length < l.text.length := by
  obtain ⟨c, hc, hp⟩ := h
  obtain ⟨es, rfl⟩ : ∃ es, ds = c :: es := ⟨_, List.eq_cons_of_mem_head? hc⟩
  refine ⟨_, _, rfl, ?_⟩
  simp [hp]

/-- Letters in front of a text are the beginning of a word. -/
theorem lexemes_letters (h : IsRun Char.isAlpha text) (i : Nat) (ds : List Char) :
    lexemes i (text.toList ++ ds) =
      onward Char.isAlpha word i text.toList (i + text.length) ds := by
  obtain ⟨c, cs, rfl, hall⟩ := h.exists_cons
  have hcs : ∀ d ∈ cs, d.isAlpha := fun d hd => hall d (List.mem_cons_of_mem c hd)
  rw [String.toList_ofList, String.length_ofList, List.cons_append,
    lexemes_letter (hall c (List.mem_cons_self ..)), onward_append hcs, List.length_cons]
  simp [Nat.add_assoc, Nat.add_comm 1]

/-- Digits in front of a text are the beginning of a number. -/
theorem lexemes_digits (h : IsRun Char.isDigit text) (i : Nat) (ds : List Char) :
    lexemes i (text.toList ++ ds) =
      onward Char.isDigit number i text.toList (i + text.length) ds := by
  obtain ⟨c, cs, rfl, hall⟩ := h.exists_cons
  have hcs : ∀ d ∈ cs, d.isDigit := fun d hd => hall d (List.mem_cons_of_mem c hd)
  rw [String.toList_ofList, String.length_ofList, List.cons_append,
    lexemes_digit (hall c (List.mem_cons_self ..)), onward_append hcs, List.length_cons]
  simp [Nat.add_assoc, Nat.add_comm 1]

theorem word_spelling (k : Keyword) : word k.spelling.toList = .ok (.keyword k) := by
  unfold word
  rw [String.ofList_toList, Keyword.ofText?_spelling]

theorem word_of_admits (h : Kind.identifier.Admits text) : word text.toList = .ok .identifier := by
  obtain ⟨⟨-, hlength⟩, hfree⟩ := h
  have hnone : Keyword.ofText? text = none := by
    rw [Option.eq_none_iff_forall_ne_some]
    exact fun k hk => hfree k (Keyword.ofText?_eq_some_iff.1 hk)
  unfold word
  rw [String.ofList_toList, hnone, String.length_toList]
  exact if_pos hlength

theorem number_of_admits (h : Kind.number.Admits text) : number text.toList = .ok .number :=
  if_pos h.2

/-- A mark is a lexeme where it does not go on. -/
theorem lexemes_mark {m : Mark} (h : ∀ c ∈ ds.head?, ¬ (Kind.mark m).GoesOn c) (i : Nat) :
    lexemes i (m.spelling.toList ++ ds) =
      ⟨i, m.spelling.toList, .ok (.mark m)⟩ :: lexemes (i + m.spelling.length) ds := by
  -- One character that stands alone, one that `=` may follow, or both of these.
  have hopening (o : Opening) (c : Char) (ho : Opening.ofChar? c = some o) (hc : o.char = c)
      (hstop : ∀ d ∈ ds.head?, d ≠ '=') :
      lexemes i ([c] ++ ds) = ⟨i, [c], alone o⟩ :: lexemes (i + 1) ds := by
    have hne : ds.head? ≠ some '=' := fun heq => hstop '=' heq rfl
    rw [List.singleton_append, lexemes_opening ho, ahead, if_neg hne, hc]
  have hpair (o : Opening) (c : Char) (ho : Opening.ofChar? c = some o) (hc : o.char = c) :
      lexemes i ([c, '='] ++ ds) =
        ⟨i, [c, '='], .ok (.mark (lengthened o))⟩ :: lexemes (i + 2) ds := by
    rw [List.cons_append, lexemes_opening ho, ahead, List.singleton_append, List.head?_cons,
      if_pos rfl, List.tail_cons, hc]
  cases m with
  | less => exact hopening .less '<' rfl rfl fun d hd heq => h d hd ⟨.inl rfl, heq⟩
  | greater => exact hopening .greater '>' rfl rfl fun d hd heq => h d hd ⟨.inr rfl, heq⟩
  | lessEqual => exact hpair .less '<' rfl rfl
  | greaterEqual => exact hpair .greater '>' rfl rfl
  | assign => exact hpair .colon ':' rfl rfl
  | _ => exact lexemes_lone rfl i ds

/-- **A lexeme is found where the text behind it does not lengthen it.** -/
theorem lexemes_of_stop (hk : k.Admits text) (h : ∀ c ∈ ds.head?, ¬ k.GoesOn c) (i : Nat) :
    lexemes i (text.toList ++ ds) =
      ⟨i, text.toList, .ok k⟩ :: lexemes (i + text.length) ds := by
  cases k with
  | mark m =>
    obtain rfl : text = m.spelling := hk
    exact lexemes_mark h i
  | keyword k =>
    obtain rfl : text = k.spelling := hk
    rw [lexemes_letters k.isRun_spelling, onward_stop h, word_spelling]
  | identifier => rw [lexemes_letters hk.1.1, onward_stop h, word_of_admits hk]
  | number => rw [lexemes_digits hk.1, onward_stop h, number_of_admits hk]

/-- **A longer lexeme is found where the text behind a lexeme lengthens it.** -/
theorem lexemes_of_goesOn (hk : k.Admits text) (h : ∃ c ∈ ds.head?, k.GoesOn c) (i : Nat) :
    ∃ l ls, lexemes i (text.toList ++ ds) = l :: ls ∧ text.length < l.text.length := by
  cases k with
  | mark m =>
    obtain rfl : text = m.spelling := hk
    obtain ⟨c, hc, hm, rfl⟩ := h
    obtain ⟨es, rfl⟩ : ∃ es, ds = '=' :: es := ⟨_, List.eq_cons_of_mem_head? hc⟩
    -- The mark found is the one with `=` at its end.
    have hlonger (n : Mark) (hn : n.spelling.toList = m.spelling.toList ++ ['='])
        (hstop : ∀ c, ¬ (Kind.mark n).GoesOn c) :
        ∃ l ls, lexemes i (m.spelling.toList ++ '=' :: es) = l :: ls ∧
          m.spelling.length < l.text.length := by
      have hends : ∀ c ∈ es.head?, ¬ (Kind.mark n).GoesOn c := fun c _ => hstop c
      have heq := lexemes_mark hends i
      rw [hn, List.append_assoc, List.singleton_append] at heq
      refine ⟨_, _, heq, ?_⟩
      rw [List.length_append, String.length_toList]
      exact Nat.lt_succ_self _
    rcases hm with rfl | rfl
    · exact hlonger .lessEqual rfl fun c hgo => by simpa using hgo.1
    · exact hlonger .greaterEqual rfl fun c hgo => by simpa using hgo.1
  | keyword k =>
    obtain rfl : text = k.spelling := hk
    rw [lexemes_letters k.isRun_spelling, ← String.length_toList]
    exact exists_onward h
  | identifier =>
    rw [lexemes_letters hk.1.1, ← String.length_toList]
    exact exists_onward h
  | number =>
    rw [lexemes_digits hk.1, ← String.length_toList]
    exact exists_onward h

end MaximalMunch

/-! ## Lexemes found are legal -/

namespace MaximalMunch

variable {i : Nat} {cs : List Char} {c : Char} {k : Kind}

theorem admits_of_word (h : ∀ d ∈ c :: cs, d.isAlpha) (hk : word (c :: cs) = .ok k) :
    k.Admits (String.ofList (c :: cs)) := by
  unfold word at hk
  cases hword : Keyword.ofText? (String.ofList (c :: cs)) with
  | some k' =>
    rw [hword] at hk
    cases hk
    exact Keyword.ofText?_eq_some_iff.1 hword
  | none =>
    rw [hword] at hk
    by_cases hlength : (c :: cs).length ≤ 10
    · dsimp only at hk
      rw [if_pos hlength] at hk
      cases hk
      refine ⟨⟨⟨by simp, by simpa using h⟩, by rwa [String.length_ofList]⟩, fun k heq => ?_⟩
      rw [heq, Keyword.ofText?_spelling] at hword
      cases hword
    · dsimp only at hk
      rw [if_neg hlength] at hk
      cases hk

theorem admits_of_number (h : ∀ d ∈ c :: cs, d.isDigit) (hk : number (c :: cs) = .ok k) :
    k.Admits (String.ofList (c :: cs)) := by
  unfold number at hk
  by_cases hle : Nat.ofDigitChars 10 (c :: cs) 0 ≤ 2 ^ 63 - 1
  · rw [if_pos hle] at hk
    cases hk
    exact ⟨⟨by simp, by simpa using h⟩, by rwa [String.toList_ofList]⟩
  · rw [if_neg hle] at hk
    cases hk

/-- The longest lexeme is a text of its kind. -/
theorem admits_front (h : (front c cs).2 = .ok k) : k.Admits (String.ofList (front c cs).1) := by
  have hrun {f : Char → Bool} (hc : f c) : ∀ d ∈ c :: cs.takeWhile f, f d := by
    intro d hd
    rcases List.mem_cons.1 hd with rfl | hd
    · exact hc
    · exact List.mem_takeWhile_imp hd
  unfold front at h ⊢
  by_cases halpha : c.isAlpha
  · rw [if_pos halpha] at h ⊢
    exact admits_of_word (hrun halpha) h
  rw [if_neg halpha] at h ⊢
  by_cases hdigit : c.isDigit
  · rw [if_pos hdigit] at h ⊢
    exact admits_of_number (hrun hdigit) h
  rw [if_neg hdigit] at h ⊢
  cases ho : Opening.ofChar? c with
  | none =>
    rw [ho] at h
    cases hm : loneMark? c with
    | none =>
      rw [hm] at h
      cases h
    | some m =>
      rw [hm] at h
      cases h
      unfold loneMark? at hm
      split at hm <;> cases hm <;> rfl
  | some o =>
    rw [ho] at h
    obtain rfl := Opening.char_of_ofChar? ho
    by_cases heq : cs.head? = some '='
    · simp only [heq, if_true] at h ⊢
      cases h
      cases o <;> rfl
    · simp only [heq, if_false] at h ⊢
      cases o with
      | less =>
        cases h
        rfl
      | greater =>
        cases h
        rfl
      | colon => cases h

theorem admits_of_mem_lexemes {l : Lexeme} (hl : l ∈ lexemes i cs) (h : l.verdict = .ok k) :
    k.Admits (String.ofList l.text) := by
  fun_induction lexemes i cs with
  | case1 => cases hl
  | case2 i c cs hblank ih => exact ih hl
  | case3 i c cs hblank ih =>
    rcases List.mem_cons.1 hl with rfl | hl
    · exact admits_front h
    · exact ih hl

end MaximalMunch

/-- **The tokens of a text are legal.** -/
theorem Lexer.admits_of_scan {text : String} {ts : List Token} (h : scan text = .ok ts) {t : Token}
    (ht : t ∈ ts) : t.kind.Admits t.text := by
  have hmem : t.lexeme ∈ lexemes 0 text.toList := by
    rw [scan_eq_ok_iff.1 h]
    exact List.mem_map_of_mem ht
  have hadmits := admits_of_mem_lexemes hmem (k := t.kind) rfl
  rwa [Token.lexeme, String.ofList_toList] at hadmits

/-! ## Scanning what is written -/

namespace Piece

variable {p q : Piece} {ps : List Piece} {tail : Gap}

theorem exists_head (q : Piece) : ∃ c cs, q.text.toList = c :: cs := by
  obtain ⟨gap, kind, text, legal⟩ := q
  refine List.exists_cons_of_ne_nil ?_
  cases kind with
  | mark m =>
    obtain rfl : text = m.spelling := legal
    exact m.spelling_ne_nil
  | keyword k =>
    obtain rfl : text = k.spelling := legal
    exact k.isRun_spelling.ne_nil
  | identifier => exact legal.1.1.ne_nil
  | number => exact legal.1.ne_nil

/-- The first character tells the kinds apart that can go on into one another. -/
theorem head_spec {c : Char} {cs : List Char} (h : q.text.toList = c :: cs) :
    (c.isAlpha ↔ q.kind.IsWord) ∧ (c.isDigit ↔ q.kind = .number) := by
  obtain ⟨gap, kind, text, legal⟩ := q
  have hmem : c ∈ text.toList := by
    rw [h]
    exact List.mem_cons_self ..
  have hletter (halpha : c.isAlpha) : ¬ c.isDigit :=
    Bool.eq_false_iff.1 (not_isDigit_of_isAlpha halpha)
  cases kind with
  | mark m =>
    obtain rfl : text = m.spelling := legal
    have hhead : ∀ d ∈ m.spelling.toList.head?, ¬ d.isAlpha ∧ ¬ d.isDigit := by
      rintro d hd
      cases m <;> cases hd <;> decide
    obtain ⟨halpha, hdigit⟩ := hhead c (by rw [h]; rfl)
    simp [Kind.IsWord, halpha, hdigit]
  | keyword k =>
    obtain rfl : text = k.spelling := legal
    have halpha := k.isRun_spelling.all c hmem
    simp [Kind.IsWord, halpha, hletter halpha]
  | identifier =>
    have halpha := legal.1.1.all c hmem
    simp [Kind.IsWord, halpha, hletter halpha]
  | number =>
    have hdigit := legal.1.all c hmem
    have halpha : ¬ c.isAlpha := fun halpha => hletter halpha hdigit
    simp [Kind.IsWord, halpha, hdigit]

/-- Lexemes fuse if the first one goes on with the character that the second one starts with. -/
theorem fuses_iff {c : Char} {cs : List Char} (h : q.text.toList = c :: cs) :
    p.Fuses q ↔ p.kind.GoesOn c := by
  obtain ⟨halpha, hdigit⟩ := head_spec h
  obtain ⟨gap, kind, text, legal⟩ := p
  unfold Fuses
  rw [← halpha, ← hdigit, h]
  cases kind <;> simp [Kind.IsWord, Kind.GoesOn]

theorem toList_write_nil (tail : Gap) : (write [] tail).toList = tail.text.toList := by
  simp [write]

theorem toList_write_cons (p : Piece) (ps : List Piece) (tail : Gap) :
    (write (p :: ps) tail).toList =
      p.gap.text.toList ++ (p.text.toList ++ (write ps tail).toList) := by
  simp [write]

/-- What is written behind a piece lengthens it exactly if the next piece follows immediately and
    fuses with it. -/
theorem goesOn_write_iff :
    (∃ c ∈ (write ps tail).toList.head?, p.kind.GoesOn c) ↔
      ∃ q ∈ ps.head?, p.Fuses q ∧ q.gap.text = "" := by
  -- A gap that is not empty ends every lexeme.
  have hgap (g : Gap) (cs : List Char) (hne : g.text.toList ≠ []) :
      ¬ ∃ c ∈ (g.text.toList ++ cs).head?, p.kind.GoesOn c := by
    rintro ⟨c, hc, hgo⟩
    obtain ⟨d, ds, hg⟩ := List.exists_cons_of_ne_nil hne
    rw [hg] at hc
    obtain rfl : d = c := Option.some.inj hc
    exact Kind.not_goesOn_of_isBlank (g.blank d (hg ▸ List.mem_cons_self ..)) hgo
  cases ps with
  | nil =>
    rw [toList_write_nil]
    by_cases hne : tail.text.toList = []
    · simp [hne]
    · have hstop := hgap tail [] hne
      rw [List.append_nil] at hstop
      simpa using hstop
  | cons q ps =>
    rw [toList_write_cons]
    by_cases hne : q.gap.text.toList = []
    · obtain ⟨c, cs, hq⟩ := q.exists_head
      have hempty : q.gap.text = "" := String.toList_eq_nil_iff.1 hne
      simp [hq, hempty, fuses_iff hq]
    · have hempty : q.gap.text ≠ "" := fun h => hne (String.toList_eq_nil_iff.2 h)
      simpa [hempty] using hgap q.gap (q.text.toList ++ (write ps tail).toList) hne

/-- **The lexemes of what is written are the pieces** exactly if blanks keep them apart. -/
theorem lexemes_write_iff (i : Nat) (ps : List Piece) (tail : Gap) :
    lexemes i (write ps tail).toList = (tokens i ps).map Token.lexeme ↔ Separated ps := by
  induction ps generalizing i with
  | nil =>
    have hblank := lexemes_blanks tail.blank i []
    rw [List.append_nil, lexemes_nil] at hblank
    rw [toList_write_nil, hblank]
    exact iff_of_true rfl .nil
  | cons p ps ih =>
    unfold Separated at ih ⊢
    rw [toList_write_cons, lexemes_blanks p.gap.blank, List.isChain_cons]
    by_cases hgo : ∃ c ∈ (write ps tail).toList.head?, p.kind.GoesOn c
    · obtain ⟨l, ls, heq, hlength⟩ := lexemes_of_goesOn p.legal hgo (i + p.gap.text.toList.length)
      obtain ⟨q, hq, hfuses, hempty⟩ := goesOn_write_iff.1 hgo
      rw [heq]
      constructor
      · intro h
        obtain ⟨rfl, -⟩ := List.cons.inj h
        have hlonger : p.text.length < p.text.toList.length := hlength
        rw [String.length_toList] at hlonger
        exact absurd hlonger (Nat.lt_irrefl _)
      · exact fun h => absurd hempty (h.1 q hq hfuses)
    · have hstop : ∀ c ∈ (write ps tail).toList.head?, ¬ p.kind.GoesOn c :=
        fun c hc hgo' => hgo ⟨c, hc, hgo'⟩
      have hapart : ∀ q ∈ ps.head?, p.Fuses q → q.gap.text ≠ "" :=
        fun q hq hfuses hempty => hgo (goesOn_write_iff.2 ⟨q, hq, hfuses, hempty⟩)
      rw [lexemes_of_stop p.legal hstop, String.length_toList, tokens, List.map_cons,
        List.cons.injEq, ih]
      exact ⟨fun h => ⟨hapart, h.2⟩, fun h => ⟨rfl, h.2⟩⟩

end Piece

namespace Lexer

/-- **Writing tokens and scanning them again gives them back**, each of its kind, with its text and
    at the place where it was written, whatever blanks stand before, between and behind them: exactly
    if there is a blank between any two words, between any two numbers, and between `<` or `>` and a
    lexeme that starts with `=`. -/
theorem scan_write_iff (ps : List Piece) (tail : Gap) :
    scan (Piece.write ps tail) = .ok (Piece.tokens 0 ps) ↔ Piece.Separated ps :=
  scan_eq_ok_iff.trans (Piece.lexemes_write_iff 0 ps tail)

end Lexer

end PL0
