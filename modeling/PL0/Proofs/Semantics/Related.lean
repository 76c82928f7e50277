import PL0.Proofs.Codegen.Names
import PL0.Proofs.Semantics.Clocked

/-!
# `Semantics.Related` — evaluations that go hand in hand

Two evaluations over different states are related (`Related`) if, from related states and with the
same time left, they end in the same way at the same time: with related results, or early for the
same reason, and then with states that look the same from outside. Statements are related over two
accesses if everything that they use through them is (`Statement.related`).
-/

namespace PL0

open Clocked

/-! ## Uses of names

What a statement does with a name decides what has to be known of it: a name that is read or
assigned needs a cell, one that is called a procedure. -/

/-- What a statement does with a name. -/
inductive Use where
  | operand (x : Ident)
  /-- It assigns to the name or reads into it. -/
  | target (x : Ident)
  | callee (x : Ident)
deriving DecidableEq

mutual

/-- The names that a statement uses. -/
def Statement.uses : Statement → List Use
  | .empty => []
  | .block body => Statement.usesOf body
  | .read targets => targets.map .target
  | .write values => values.flatMap fun e => e.idents.map .operand
  | .call f => [.callee f]
  | .whileDo c body => c.idents.map .operand ++ body.uses
  | .assign x e => .target x :: e.idents.map .operand
  | .ifThen c body => c.idents.map .operand ++ body.uses

/-- The uses of statements, one after the other. -/
def Statement.usesOf : List Statement → List Use
  | [] => []
  | s :: ss => s.uses ++ Statement.usesOf ss

end

/-- Nothing but the value of the name is asked for. -/
def Use.IsOperand : Use → Prop
  | operand _ => True
  | target _ => False
  | callee _ => False

instance : DecidablePred Use.IsOperand
  | .operand _ => inferInstanceAs (Decidable True)
  | .target _ => inferInstanceAs (Decidable False)
  | .callee _ => inferInstanceAs (Decidable False)

/-- The name used. -/
def Use.ident : Use → Ident
  | operand x => x
  | target x => x
  | callee x => x

/-- Operands are the identifiers of expressions and conditions. -/
theorem Use.ident_mem_of_operand {u : Use} {xs : List Ident} (h : u ∈ xs.map Use.operand) :
    u.ident ∈ xs := by
  obtain ⟨x, hx, rfl⟩ := List.mem_map.1 h
  exact hx

mutual

/-- A name that is used is an identifier of the statement. -/
theorem Statement.ident_mem_idents {s : Statement} {u : Use} (hu : u ∈ s.uses) :
    u.ident ∈ s.idents := by
  cases s with
  | empty => cases hu
  | block body => exact Statement.ident_mem_identsOf hu
  | read targets =>
    obtain ⟨x, hx, rfl⟩ := List.mem_map.1 hu
    exact hx
  | write values =>
    obtain ⟨e, he, hu⟩ := List.mem_flatMap.1 hu
    exact List.mem_flatMap.2 ⟨e, he, Use.ident_mem_of_operand hu⟩
  | call f =>
    rw [List.mem_singleton.1 hu]
    exact List.mem_singleton_self f
  | whileDo c body =>
    rcases List.mem_append.1 hu with hu | hu
    · exact List.mem_append_left _ (Use.ident_mem_of_operand hu)
    · exact List.mem_append_right _ (Statement.ident_mem_idents hu)
  | assign x e =>
    rcases List.mem_cons.1 hu with rfl | hu
    · exact List.mem_append_right _ (List.mem_singleton_self x)
    · exact List.mem_append_left _ (Use.ident_mem_of_operand hu)
  | ifThen c body =>
    rcases List.mem_append.1 hu with hu | hu
    · exact List.mem_append_left _ (Use.ident_mem_of_operand hu)
    · exact List.mem_append_right _ (Statement.ident_mem_idents hu)

/-- The same for the statements of a list. -/
theorem Statement.ident_mem_identsOf {ss : List Statement} {u : Use}
    (hu : u ∈ Statement.usesOf ss) : u.ident ∈ Statement.identsOf ss := by
  cases ss with
  | nil => cases hu
  | cons s ss =>
    rcases List.mem_append.1 hu with hu | hu
    · exact List.mem_append_left _ (Statement.ident_mem_idents hu)
    · exact List.mem_append_right _ (Statement.ident_mem_identsOf hu)

end

/-! ## Related evaluations

Relations between evaluations, and how they are put together. `R` relates the states where both
evaluations go on and `Obs` those where both have stopped, of which less can be seen. -/

section

variable {σ τ α β γ δ : Type}

/-- Two results: at the same time, and both in order or both for the same reason early, which is
    never a stray call. `Q` relates results and states of evaluations that end in order, `Obs` the
    states of the others. -/
def Matched (Obs : σ → τ → Prop) (Q : α → β → σ → τ → Prop) :
    EStateM.Result Stop (Nat × σ) α → EStateM.Result Stop (Nat × τ) β → Prop
  | .ok a (n, s), .ok b (k, t) => n = k ∧ Q a b s t
  | .error e (n, s), .error e' (k, t) => e = e' ∧ (∀ v, e ≠ .stray v) ∧ n = k ∧ Obs s t
  | .ok _ _, .error _ _ => False
  | .error _ _, .ok _ _ => False

/-- From states related by `R` two evaluations have results that match. -/
def Related (Obs : σ → τ → Prop) (R : σ → τ → Prop) (c : Clocked σ α) (d : Clocked τ β)
    (Q : α → β → σ → τ → Prop) : Prop :=
  ∀ n s t, R s t → Matched Obs Q (c (n, s)) (d (n, t))

/-- Two actions end in the same way. -/
def Alike (Obs : σ → τ → Prop) (R : σ → τ → Prop) (f : EStateM Stop σ α) (g : EStateM Stop τ β)
    (Q : α → β → σ → τ → Prop) : Prop :=
  ∀ s t, R s t →
    (∃ a b s' t', f s = .ok a s' ∧ g t = .ok b t' ∧ Q a b s' t') ∨
      ∃ e s' t', f s = .error e s' ∧ g t = .error e t' ∧ (∀ v, e ≠ .stray v) ∧ Obs s' t'

variable {Obs : σ → τ → Prop} {R R' : σ → τ → Prop}

/-- Actions that end alike take the same time. -/
theorem Related.act {f : EStateM Stop σ α} {g : EStateM Stop τ β} {Q : α → β → σ → τ → Prop}
    (hobs : ∀ s t, R s t → Obs s t) (h : Alike Obs R f g Q) : Related Obs R (act f) (act g) Q := by
  intro n s t hst
  cases n with
  -- Without time left neither of them starts.
  | zero => exact ⟨rfl, by simp, rfl, hobs s t hst⟩
  | succ n =>
    rcases h s t hst with ⟨a, b, s', t', hf, hg, hq⟩ | ⟨e, s', t', hf, hg, he, ho⟩
    · rw [act_succ_of_ok hf, act_succ_of_ok hg]
      exact ⟨rfl, hq⟩
    · rw [act_succ_of_error hf, act_succ_of_error hg]
      exact ⟨rfl, he, rfl, ho⟩

/-- Values may differ if `Q` says so. -/
theorem Related.pure {a : α} {b : β} {Q : α → β → σ → τ → Prop} (h : ∀ s t, R s t → Q a b s t) :
    Related Obs R (pure a) (pure b) Q :=
  fun _ s t hst => ⟨rfl, h s t hst⟩

/-- Both stop for the same reason. Stray calls are excluded throughout. -/
theorem Related.throw {e : Stop} {Q : α → β → σ → τ → Prop} (he : ∀ v, e ≠ .stray v)
    (hobs : ∀ s t, R s t → Obs s t) : Related Obs R (throw e) (throw e) Q :=
  fun _ s t hst => ⟨rfl, he, rfl, hobs s t hst⟩

/-- **Related evaluations compose**, as long as what the first ones leave is what the second ones
    need. -/
theorem Related.bind {c : Clocked σ α} {d : Clocked τ β} {c' : α → Clocked σ γ}
    {d' : β → Clocked τ δ} {P : α → β → σ → τ → Prop} {Q : γ → δ → σ → τ → Prop}
    (h : Related Obs R c d P) (h' : ∀ a b, Related Obs (P a b) (c' a) (d' b) Q) :
    Related Obs R (c >>= c') (d >>= d') Q := by
  intro n s t hst
  have hcd := h n s t hst
  cases hc : c (n, s) with
  | ok a s' =>
    obtain ⟨k, s'⟩ := s'
    cases hd : d (n, t) with
    | ok b t' =>
      obtain ⟨k', t'⟩ := t'
      rw [hc, hd] at hcd
      obtain ⟨rfl, hp⟩ := hcd
      rw [bind_of_ok hc, bind_of_ok hd]
      exact h' a b k s' t' hp
    | error e t' =>
      rw [hc, hd] at hcd
      exact hcd.elim
  | error e s' =>
    cases hd : d (n, t) with
    | ok b t' =>
      rw [hc, hd] at hcd
      exact hcd.elim
    | error e' t' =>
      rw [hc, hd] at hcd
      rw [bind_of_error hc, bind_of_error hd]
      exact hcd

/-- States related by `R`, and equal results. -/
def same (R : σ → τ → Prop) (a b : α) (s : σ) (t : τ) : Prop := a = b ∧ R s t

/-- States may be known better before and worse behind. -/
theorem Related.mono {c : Clocked σ α} {d : Clocked τ α} {S S' : σ → τ → Prop}
    (h : Related Obs R' c d (same S')) (hbefore : ∀ s t, R s t → R' s t)
    (hafter : ∀ s t, S' s t → S s t) : Related Obs R c d (same S) := by
  intro n s t hst
  have hcd := h n s t (hbefore s t hst)
  generalize c (n, s) = x at hcd ⊢
  generalize d (n, t) = y at hcd ⊢
  cases x with
  | ok a s' =>
    cases y with
    | ok b t' =>
      obtain ⟨hn, hab, hs⟩ := hcd
      exact ⟨hn, hab, hafter _ _ hs⟩
    | error e t' => exact hcd
  | error e s' =>
    cases y with
    | ok b t' => exact hcd
    | error e' t' => exact hcd

/-- One evaluation after the other, the first with equal results. -/
theorem Related.andThen {c : Clocked σ α} {d : Clocked τ α} {c' : α → Clocked σ γ}
    {d' : α → Clocked τ δ} {Q : γ → δ → σ → τ → Prop} (h : Related Obs R c d (same R'))
    (h' : ∀ a, Related Obs R' (c' a) (d' a) Q) : Related Obs R (c >>= c') (d >>= d') Q := by
  refine h.bind fun a b => ?_
  rintro n s t ⟨rfl, hst⟩
  exact h' a n s t hst

theorem Alike.pure (a : α) : Alike Obs R (pure a) (pure a) (same R) :=
  fun s t hst => Or.inl ⟨a, a, s, t, rfl, rfl, rfl, hst⟩

/-- A fault is the same fault in both. -/
theorem Alike.orFault (hobs : ∀ s t, R s t → Obs s t) (r : Except Fault α) :
    Alike Obs R (orFault r) (orFault r) (same R) := by
  intro s t hst
  cases r with
  | ok a => exact Or.inl ⟨a, a, s, t, rfl, rfl, rfl, hst⟩
  | error f => exact Or.inr ⟨.fault f, s, t, rfl, rfl, by simp, hobs s t hst⟩

theorem Related.pause (hobs : ∀ s t, R s t → Obs s t) :
    Related Obs R pause pause (same R) := Related.act hobs (Alike.pure ())

/-- Rounds over a list, element by element. -/
theorem Related.each {f : α → Clocked σ Unit} {g : α → Clocked τ Unit} {xs : List α}
    (h : ∀ x ∈ xs, Related Obs R (f x) (g x) (same R)) :
    Related Obs R (each f xs) (each g xs) (same R) := by
  induction xs with
  | nil => exact Related.pure fun s t hst => ⟨rfl, hst⟩
  | cons x xs ih =>
    refine (h x (List.mem_cons_self ..)).andThen fun _ => ih fun y hy => ?_
    exact h y (List.mem_cons_of_mem _ hy)

/-- Loops with related tests and bodies have the same number of rounds. -/
theorem Related.loop {test : Clocked σ Int} {test' : Clocked τ Int} {body : Clocked σ Unit}
    {body' : Clocked τ Unit} (hobs : ∀ s t, R s t → Obs s t)
    (htest : Related Obs R test test' (same R)) (hbody : Related Obs R body body' (same R))
    (gas : Nat) : Related Obs R (loop test body gas) (loop test' body' gas) (same R) := by
  induction gas with
  | zero => exact Related.throw (by simp) hobs
  | succ gas ih =>
    refine htest.andThen fun v => (Related.pause hobs).andThen fun _ => ?_
    -- Equal values decide alike whether there is another round.
    by_cases hv : v = 0
    · rw [if_pos hv, if_pos hv]
      exact Related.pure fun s t hst => ⟨rfl, hst⟩
    · rw [if_neg hv, if_neg hv]
      exact hbody.andThen fun _ => (Related.pause hobs).andThen fun _ => ih

/-! ## Related accesses

Statements reach their variables, channels and procedures through an access only. So the induction
along a statement needs nothing but that two accesses do alike with what it uses. -/

/-- What is used through two accesses is related. -/
structure Access.Related (Obs : σ → τ → Prop) (R : σ → τ → Prop) (uses : List Use)
    (io : Access σ) (io' : Access τ) : Prop where
  obs : ∀ s t, R s t → Obs s t
  load : ∀ x, .operand x ∈ uses → Alike Obs R (io.load x) (io'.load x) (same R)
  store : ∀ x v, .target x ∈ uses → Alike Obs R (io.store x v) (io'.store x v) (same R)
  read : Alike Obs R io.read io'.read (same R)
  write : ∀ v, Alike Obs R (io.write v) (io'.write v) (same R)
  call : ∀ f, .callee f ∈ uses → PL0.Related Obs R (io.call f) (io'.call f) (same R)

variable {uses : List Use} {io : Access σ} {io' : Access τ}

mutual

/-- Expressions have equal values over related accesses. -/
theorem Expr.related (h : io.Related Obs R uses io') {e : Expr}
    (hu : ∀ x ∈ e.idents, .operand x ∈ uses) :
    Related Obs R (e.eval io) (e.eval io') (same R) := by
  cases e with
  | mk sign ts => exact Terms.related h hu

theorem Terms.related (h : io.Related Obs R uses io') {ts : Terms}
    (hu : ∀ x ∈ ts.idents, .operand x ∈ uses) :
    Related Obs R (ts.eval io) (ts.eval io') (same R) := by
  cases ts with
  | single t => exact Term.related h hu
  | join left op right =>
    have hl : Related Obs R (left.eval io) (left.eval io') (same R) :=
      Terms.related h fun x hx => hu x (List.mem_append_left _ hx)
    have hr : Related Obs R (right.eval io) (right.eval io') (same R) :=
      Term.related h fun x hx => hu x (List.mem_append_right _ hx)
    exact hl.andThen fun l => hr.andThen fun r => Related.act h.obs (Alike.orFault h.obs _)

theorem Term.related (h : io.Related Obs R uses io') {t : Term}
    (hu : ∀ x ∈ t.idents, .operand x ∈ uses) :
    Related Obs R (t.eval io) (t.eval io') (same R) := by
  cases t with
  | single f => exact Factor.related h hu
  | join left op right =>
    have hl : Related Obs R (left.eval io) (left.eval io') (same R) :=
      Term.related h fun x hx => hu x (List.mem_append_left _ hx)
    have hr : Related Obs R (right.eval io) (right.eval io') (same R) :=
      Factor.related h fun x hx => hu x (List.mem_append_right _ hx)
    exact hl.andThen fun l => hr.andThen fun r => Related.act h.obs (Alike.orFault h.obs _)

/-- Only a name is looked up through the access. -/
theorem Factor.related (h : io.Related Obs R uses io') {f : Factor}
    (hu : ∀ x ∈ f.idents, .operand x ∈ uses) :
    Related Obs R (f.eval io) (f.eval io') (same R) := by
  cases f with
  | ident x => exact Related.act h.obs (h.load x (hu x (List.mem_singleton_self x)))
  | number n => exact Related.act h.obs (Alike.pure n.value)
  | group e => exact Expr.related h (e := e) hu

end

/-- Conditions have equal values, so both evaluations take the same branch. -/
theorem Condition.related (h : io.Related Obs R uses io') {c : Condition}
    (hu : ∀ x ∈ c.idents, .operand x ∈ uses) :
    Related Obs R (c.eval io) (c.eval io') (same R) := by
  cases c with
  | odd e =>
    refine (Expr.related h hu).andThen fun v => ?_
    exact Related.act h.obs (Alike.pure _)
  | compare left rel right =>
    refine (Expr.related h fun x hx => hu x (List.mem_append_left _ hx)).andThen fun l => ?_
    refine (Expr.related h fun x hx => hu x (List.mem_append_right _ hx)).andThen fun r => ?_
    exact Related.act h.obs (Alike.pure _)

mutual

/-- **Statements are related** where all that they use is. -/
theorem Statement.related (h : io.Related Obs R uses io') (gas : Nat) {s : Statement}
    (hu : ∀ u ∈ s.uses, u ∈ uses) :
    Related Obs R (s.exec io gas) (s.exec io' gas) (same R) := by
  cases s with
  | empty => exact Related.pure fun s t hst => ⟨rfl, hst⟩
  | block body => exact Statement.related_all h gas hu
  | read targets =>
    refine Related.each fun x hx => ?_
    have hx := hu (.target x) (List.mem_map_of_mem hx)
    exact (Related.act h.obs h.read).andThen fun v => Related.act h.obs (h.store x v hx)
  | write values =>
    refine Related.each fun e he => ?_
    have hoperands : ∀ x ∈ e.idents, .operand x ∈ uses := fun x hx =>
      hu _ (List.mem_flatMap.2 ⟨e, he, List.mem_map_of_mem hx⟩)
    exact (Expr.related h hoperands).andThen fun v => Related.act h.obs (h.write v)
  | call f => exact h.call f (hu _ (List.mem_singleton_self _))
  | whileDo c body =>
    have htest : Related Obs R (c.eval io) (c.eval io') (same R) := Condition.related h fun x hx =>
      hu _ (List.mem_append_left _ (List.mem_map_of_mem hx))
    have hbody : Related Obs R (body.exec io gas) (body.exec io' gas) (same R) :=
      Statement.related h gas fun u hu' => hu u (List.mem_append_right _ hu')
    exact Related.loop h.obs htest hbody gas
  | assign x e =>
    have hoperands : ∀ x ∈ e.idents, .operand x ∈ uses := fun x hx =>
      hu _ (List.mem_cons_of_mem _ (List.mem_map_of_mem hx))
    have hx := hu (.target x) (List.mem_cons_self ..)
    exact (Expr.related h hoperands).andThen fun v => Related.act h.obs (h.store x v hx)
  | ifThen c body =>
    have htest : Related Obs R (c.eval io) (c.eval io') (same R) := Condition.related h fun x hx =>
      hu _ (List.mem_append_left _ (List.mem_map_of_mem hx))
    have hbody : Related Obs R (body.exec io gas) (body.exec io' gas) (same R) :=
      Statement.related h gas fun u hu' => hu u (List.mem_append_right _ hu')
    refine htest.andThen fun v => (Related.pause h.obs).andThen fun _ => ?_
    by_cases hv : v = 0
    · rw [if_pos hv, if_pos hv]
      exact Related.pure fun s t hst => ⟨rfl, hst⟩
    · rw [if_neg hv, if_neg hv]
      exact hbody

/-- Statements in turn. -/
theorem Statement.related_all (h : io.Related Obs R uses io') (gas : Nat) {ss : List Statement}
    (hu : ∀ u ∈ Statement.usesOf ss, u ∈ uses) :
    Related Obs R (Statement.execAll io gas ss) (Statement.execAll io' gas ss) (same R) := by
  cases ss with
  | nil => exact Related.pure fun s t hst => ⟨rfl, hst⟩
  | cons s ss =>
    have hfirst : Related Obs R (s.exec io gas) (s.exec io' gas) (same R) :=
      Statement.related h gas fun u hu' => hu u (List.mem_append_left _ hu')
    exact hfirst.andThen fun _ =>
      Statement.related_all h gas fun u hu' => hu u (List.mem_append_right _ hu')

end

end

end PL0
