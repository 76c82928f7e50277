import PL0.Proofs.Codegen.Size
import PL0.Proofs.Semantics.Related

/-!
# `Semantics.Bounded` — evaluations that end in time

What an evaluation costs is what it takes from the clock. `Ends gas P cost c Q` says that `c`, from
states with `P` and with at least `cost` time left, ends in order within `cost` and leaves `Q`, or
comes to a fault; it neither runs out of time nor calls astray. Costs add up along a sequence
(`Ends.bind`). The gas of `c` is not used up because there is less time than gas.

Main statement: `Statement.ends`. A statement without loops ends within the number of its
instructions and the cost of its calls (`Statement.cost`), over any access that keeps `P`
(`Access.Keeps`).
-/

namespace PL0

open Clocked

/-! ## Statements without loops

Without loops, a statement does each of its actions at most once, so that its cost can be read off
the tree: the number of instructions, with `call` for each call. For a loop the cost is that of one
round, which no theorem speaks of. -/

mutual

/-- The statement has no `while` in it. -/
def Statement.LoopFree : Statement → Prop
  | .empty => True
  | .block body => Statement.LoopFreeAll body
  | .read _ => True
  | .write _ => True
  | .call _ => True
  | .whileDo _ _ => False
  | .assign _ _ => True
  | .ifThen _ body => body.LoopFree

/-- None of the statements has a `while` in it. -/
def Statement.LoopFreeAll : List Statement → Prop
  | [] => True
  | s :: ss => s.LoopFree ∧ Statement.LoopFreeAll ss

end

mutual

instance Statement.decidableLoopFree : DecidablePred Statement.LoopFree
  | .empty => inferInstanceAs (Decidable True)
  | .block body => Statement.decidableLoopFreeAll body
  | .read _ => inferInstanceAs (Decidable True)
  | .write _ => inferInstanceAs (Decidable True)
  | .call _ => inferInstanceAs (Decidable True)
  | .whileDo _ _ => inferInstanceAs (Decidable False)
  | .assign _ _ => inferInstanceAs (Decidable True)
  | .ifThen _ body => Statement.decidableLoopFree body

instance Statement.decidableLoopFreeAll : DecidablePred Statement.LoopFreeAll
  | [] => inferInstanceAs (Decidable True)
  | s :: ss =>
    have := Statement.decidableLoopFree s
    have := Statement.decidableLoopFreeAll ss
    inferInstanceAs (Decidable (s.LoopFree ∧ Statement.LoopFreeAll ss))

end

mutual

/-- The time that a statement without loops takes at most, a call taking `call`. -/
def Statement.cost (call : Nat) : Statement → Nat
  | .empty => 0
  | .block body => Statement.costs call body
  | .read targets => (targets.map fun _ => 2).sum
  | .write values => (values.map fun e => e.codeSize + 1).sum
  | .call _ => call
  | .whileDo c body => c.codeSize + (1 + body.cost call)
  | .assign _ e => e.codeSize + 1
  | .ifThen c body => c.codeSize + (1 + body.cost call)

/-- Costs of statements in turn add up. -/
def Statement.costs (call : Nat) : List Statement → Nat
  | [] => 0
  | s :: ss => s.cost call + Statement.costs call ss

end

/-! ## Evaluations that end

The clock counts down and the gas limits the rounds of loops. What is shown needs time for the cost
and no more; that time stays below the gas is carried along, because a call spends one unit of both.
-/

/-- The evaluation came to an end of its own. -/
def Stop.Definite : Stop → Prop
  | timeout => False
  | fault _ => True
  | stray _ => False
  | unbound => True

section

variable {σ τ α β : Type} {P : σ → Prop}

/-- With time for `cost`, less than `gas`, and from states with `P`, an evaluation ends. If it ends
    in order, it has taken at most `cost`, and `Q` holds of its result and its state. -/
def Ends (gas : Nat) (P : σ → Prop) (cost : Nat) (c : Clocked σ α) (Q : α → σ → Prop) : Prop :=
  ∀ n s, n < gas → cost ≤ n → P s →
    match c (n, s) with
    | .ok a (k, s) => k ≤ n ∧ n ≤ k + cost ∧ Q a s
    | .error e _ => e.Definite

/-- An action from states with `P` leaves `Q` or comes to an end. -/
def Keeps (P : σ → Prop) (f : EStateM Stop σ α) (Q : α → σ → Prop) : Prop :=
  ∀ s, P s →
    match f s with
    | .ok a s => Q a s
    | .error e _ => e.Definite

namespace Ends

variable {gas cost cost' : Nat} {c : Clocked σ α} {Q : α → σ → Prop}

/-- Nothing to do takes no time. -/
theorem pure {a : α} (h : ∀ s, P s → Q a s) : Ends gas P 0 (pure a) Q :=
  fun _ s _ _ hs => ⟨Nat.le_refl _, Nat.le_refl _, h s hs⟩

/-- An action takes one unit of time, and with it one of the gas. -/
theorem act_bind {f : EStateM Stop σ α} {g : α → Clocked σ β} {R : β → σ → Prop}
    (h : Keeps P f Q) (hg : ∀ a, Ends gas (Q a) cost (g a) R) :
    Ends (gas + 1) P (1 + cost) (act f >>= g) R := by
  intro n s hgas hn hs
  obtain ⟨n, rfl⟩ : ∃ k, n = k + 1 := ⟨n - 1, by omega⟩
  have hf := h s hs
  cases hr : f s with
  | ok a s' =>
    rw [hr] at hf
    have hrest := hg a n s' (by omega) (by omega) hf
    -- The action is done, and the rest has one unit less of both.
    rw [bind_of_ok (act_succ_of_ok hr n)]
    cases hr' : g a (n, s') with
    | ok b s'' =>
      obtain ⟨k, s''⟩ := s''
      rw [hr'] at hrest
      exact ⟨by omega, by omega, hrest.2.2⟩
    | error e s'' =>
      rw [hr'] at hrest
      exact hrest
  | error e s' =>
    rw [hr] at hf
    rw [bind_of_error (act_succ_of_error hr n)]
    exact hf

/-- An action by itself. -/
theorem act {f : EStateM Stop σ α} (h : Keeps P f Q) : Ends gas P 1 (act f) Q := by
  intro n s _ hn hs
  obtain ⟨n, rfl⟩ : ∃ k, n = k + 1 := ⟨n - 1, by omega⟩
  have hf := h s hs
  cases hr : f s with
  | ok a s' =>
    rw [hr] at hf
    rw [act_succ_of_ok hr]
    exact ⟨Nat.le_succ n, Nat.le_refl _, hf⟩
  | error e s' =>
    rw [hr] at hf
    rw [act_succ_of_error hr]
    exact hf

/-- **Costs add up.** -/
theorem bind {f : α → Clocked σ β} {R : β → σ → Prop} (h : Ends gas P cost c Q)
    (hf : ∀ a, Ends gas (Q a) cost' (f a) R) : Ends gas P (cost + cost') (c >>= f) R := by
  intro n s hgas hn hs
  have hc := h n s hgas (by omega) hs
  cases hr : c (n, s) with
  | ok a s' =>
    obtain ⟨k, s'⟩ := s'
    rw [hr] at hc
    obtain ⟨hle, hk, hq⟩ := hc
    have hf' := hf a k s' (by omega) (by omega) hq
    rw [bind_of_ok hr]
    cases hr' : f a (k, s') with
    | ok b s'' =>
      obtain ⟨j, s''⟩ := s''
      rw [hr'] at hf'
      exact ⟨by omega, by omega, hf'.2.2⟩
    | error e s'' =>
      rw [hr'] at hf'
      exact hf'
  | error e s' =>
    rw [hr] at hc
    rw [bind_of_error hr]
    exact hc

/-- A cost may be estimated more generously. -/
theorem mono (h : Ends gas P cost c Q) (hle : cost ≤ cost') : Ends gas P cost' c Q := by
  intro n s hgas hn hs
  have hc := h n s hgas (by omega) hs
  cases hr : c (n, s) with
  | ok a s' =>
    rw [hr] at hc
    exact ⟨hc.1, by omega, hc.2.2⟩
  | error e s' =>
    rw [hr] at hc
    exact hc

/-- The costs of the rounds over a list add up, each of them its own. -/
theorem each {f : α → Clocked σ Unit} (cost : α → Nat) {xs : List α}
    (h : ∀ x ∈ xs, Ends gas P (cost x) (f x) fun _ => P) :
    Ends gas P (xs.map cost).sum (each f xs) fun _ => P := by
  induction xs with
  | nil => exact pure fun _ hs => hs
  | cons x xs ih =>
    rw [List.map_cons, List.sum_cons]
    refine (h x (List.mem_cons_self ..)).bind fun _ => ih fun y hy => ?_
    exact h y (List.mem_cons_of_mem _ hy)

/-- An evaluation ends where one does that goes hand in hand with it. -/
theorem of_related {Obs R S : τ → σ → Prop} {d : Clocked τ α} (h : Related Obs R d c (same S))
    (hd : Ends gas (fun _ => True) cost d fun _ _ => True) :
    Ends gas (fun s => ∃ t, R t s) cost c fun _ s => ∃ t, S t s := by
  rintro n s hgas hn ⟨t, hts⟩
  have hdn := hd n t hgas hn trivial
  have hcd := h n t s hts
  -- Related evaluations end in the same way at the same time; the mixed cases are excluded.
  cases hr : d (n, t) with
  | ok a t' =>
    obtain ⟨k, t'⟩ := t'
    cases hr' : c (n, s) with
    | ok b s' =>
      obtain ⟨k', s'⟩ := s'
      rw [hr, hr'] at hcd
      obtain ⟨rfl, -, hS⟩ := hcd
      rw [hr] at hdn
      exact ⟨hdn.1, hdn.2.1, t', hS⟩
    | error e s' =>
      rw [hr, hr'] at hcd
      exact hcd.elim
  | error e t' =>
    cases hr' : c (n, s) with
    | ok b s' =>
      rw [hr, hr'] at hcd
      exact hcd.elim
    | error e' s' =>
      rw [hr, hr'] at hcd
      obtain ⟨rfl, -⟩ := hcd
      rw [hr] at hdn
      exact hdn

end Ends

namespace Keeps

theorem pure (a : α) : Keeps P (pure a) fun _ => P := fun _ hs => hs

/-- A fault is an end of its own. -/
theorem orFault (r : Except Fault α) : Keeps P (orFault r) fun _ => P := by
  intro s hs
  cases r with
  | ok a => exact hs
  | error f => trivial

/-- An action comes to an end where one does that goes hand in hand with it. -/
theorem of_alike {Obs R S : τ → σ → Prop} {g : EStateM Stop τ α} {f : EStateM Stop σ α}
    (h : Alike Obs R g f (same S)) (hg : Keeps (fun _ => True) g fun _ _ => True) :
    Keeps (fun s => ∃ t, R t s) f fun _ s => ∃ t, S t s := by
  rintro s ⟨t, hts⟩
  have hgt := hg t trivial
  rcases h t s hts with ⟨a, b, t', s', -, hf, -, hS⟩ | ⟨e, t', s', hgr, hf, -⟩
  · rw [hf]
    exact ⟨t', hS⟩
  · rw [hgr] at hgt
    rw [hf]
    exact hgt

end Keeps

/-- A pause, as in front of the body of an `if`. -/
theorem Ends.pause {gas : Nat} : Ends gas P 1 pause fun _ => P := Ends.act (Keeps.pure ())

/-! ## Statements over an access

The induction along a statement. Of the access it asks what the access does with the names that the
statement uses and with the channels. -/

/-- What is used through an access keeps `P`, and a call costs at most `call`. -/
structure Access.Keeps (gas : Nat) (P : σ → Prop) (uses : List Use) (call : Nat)
    (io : Access σ) : Prop where
  load : ∀ x, .operand x ∈ uses → PL0.Keeps P (io.load x) fun _ => P
  store : ∀ x v, .target x ∈ uses → PL0.Keeps P (io.store x v) fun _ => P
  read : PL0.Keeps P io.read fun _ => P
  write : ∀ v, PL0.Keeps P (io.write v) fun _ => P
  call : ∀ f, .callee f ∈ uses → Ends gas P call (io.call f) fun _ => P

variable {gas call : Nat} {uses : List Use} {io : Access σ}

mutual

/-- An expression costs one action for each instruction of its code. -/
theorem Expr.ends (h : io.Keeps gas P uses call) {e : Expr}
    (hu : ∀ x ∈ e.idents, .operand x ∈ uses) :
    Ends gas P e.codeSize (e.eval io) fun _ => P := by
  cases e with
  | mk sign ts => exact Terms.ends h hu

theorem Terms.ends (h : io.Keeps gas P uses call) {ts : Terms}
    (hu : ∀ x ∈ ts.idents, .operand x ∈ uses) :
    Ends gas P ts.codeSize (ts.eval io) fun _ => P := by
  cases ts with
  | single t => exact Term.ends h hu
  | join left op right =>
    have hl : Ends gas P left.codeSize (left.eval io) fun _ => P :=
      Terms.ends h fun x hx => hu x (List.mem_append_left _ hx)
    have hr : Ends gas P right.codeSize (right.eval io) fun _ => P :=
      Term.ends h fun x hx => hu x (List.mem_append_right _ hx)
    rw [Terms.codeSize, Nat.add_assoc]
    exact hl.bind fun l => hr.bind fun r => Ends.act (Keeps.orFault _)

theorem Term.ends (h : io.Keeps gas P uses call) {t : Term}
    (hu : ∀ x ∈ t.idents, .operand x ∈ uses) :
    Ends gas P t.codeSize (t.eval io) fun _ => P := by
  cases t with
  | single f => exact Factor.ends h hu
  | join left op right =>
    have hl : Ends gas P left.codeSize (left.eval io) fun _ => P :=
      Term.ends h fun x hx => hu x (List.mem_append_left _ hx)
    have hr : Ends gas P right.codeSize (right.eval io) fun _ => P :=
      Factor.ends h fun x hx => hu x (List.mem_append_right _ hx)
    rw [Term.codeSize, Nat.add_assoc]
    exact hl.bind fun l => hr.bind fun r => Ends.act (Keeps.orFault _)

/-- A name is looked up and a number is there; each takes one action. -/
theorem Factor.ends (h : io.Keeps gas P uses call) {f : Factor}
    (hu : ∀ x ∈ f.idents, .operand x ∈ uses) :
    Ends gas P f.codeSize (f.eval io) fun _ => P := by
  cases f with
  | ident x => exact Ends.act (h.load x (hu x (List.mem_singleton_self x)))
  | number n => exact Ends.act (Keeps.pure n.value)
  | group e => exact Expr.ends h (e := e) hu

end

/-- The comparison is one more action. -/
theorem Condition.ends (h : io.Keeps gas P uses call) {c : Condition}
    (hu : ∀ x ∈ c.idents, .operand x ∈ uses) : Ends gas P c.codeSize (c.eval io) fun _ => P := by
  cases c with
  | odd e => exact (Expr.ends h hu).bind fun v => Ends.act (Keeps.pure _)
  | compare left rel right =>
    rw [Condition.codeSize, Nat.add_assoc]
    refine (Expr.ends h fun x hx => hu x (List.mem_append_left _ hx)).bind fun l => ?_
    refine (Expr.ends h fun x hx => hu x (List.mem_append_right _ hx)).bind fun r => ?_
    exact Ends.act (Keeps.pure _)

mutual

/-- **A statement without loops ends** within its cost. -/
theorem Statement.ends (h : io.Keeps gas P uses call) {s : Statement} (hs : s.LoopFree)
    (hu : ∀ u ∈ s.uses, u ∈ uses) : Ends gas P (s.cost call) (s.exec io gas) fun _ => P := by
  cases s with
  | empty => exact Ends.pure fun _ hs => hs
  | block body => exact Statement.ends_all h hs hu
  | read targets =>
    refine Ends.each (fun _ => 2) fun x hx => ?_
    have hx := hu (.target x) (List.mem_map_of_mem hx)
    exact (Ends.act h.read).bind fun v => Ends.act (h.store x v hx)
  | write values =>
    refine Ends.each (fun e : Expr => e.codeSize + 1) fun e he => ?_
    have hoperands : ∀ x ∈ e.idents, .operand x ∈ uses := fun x hx =>
      hu _ (List.mem_flatMap.2 ⟨e, he, List.mem_map_of_mem hx⟩)
    exact (Expr.ends h hoperands).bind fun v => Ends.act (h.write v)
  | call f => exact h.call f (hu _ (List.mem_singleton_self _))
  | whileDo c body => exact hs.elim
  | assign x e =>
    have hoperands : ∀ x ∈ e.idents, .operand x ∈ uses := fun x hx =>
      hu _ (List.mem_cons_of_mem _ (List.mem_map_of_mem hx))
    have hx := hu (.target x) (List.mem_cons_self ..)
    exact (Expr.ends h hoperands).bind fun v => Ends.act (h.store x v hx)
  | ifThen c body =>
    have htest : Ends gas P c.codeSize (c.eval io) fun _ => P := Condition.ends h fun x hx =>
      hu _ (List.mem_append_left _ (List.mem_map_of_mem hx))
    have hbody : Ends gas P (body.cost call) (body.exec io gas) fun _ => P :=
      Statement.ends h hs fun u hu' => hu u (List.mem_append_right _ hu')
    refine htest.bind fun v => Ends.pause.bind fun _ => ?_
    -- Without the body it ends at once, which is within its cost too.
    by_cases hv : v = 0
    · rw [if_pos hv]
      have hnone : Ends gas P 0 (pure ()) fun _ => P := Ends.pure fun _ hs => hs
      exact hnone.mono (Nat.zero_le _)
    · rw [if_neg hv]
      exact hbody

/-- Statements in turn end in turn. -/
theorem Statement.ends_all (h : io.Keeps gas P uses call) {ss : List Statement}
    (hs : Statement.LoopFreeAll ss) (hu : ∀ u ∈ Statement.usesOf ss, u ∈ uses) :
    Ends gas P (Statement.costs call ss) (Statement.execAll io gas ss) fun _ => P := by
  cases ss with
  | nil => exact Ends.pure fun _ hs => hs
  | cons s ss =>
    have hfirst : Ends gas P (s.cost call) (s.exec io gas) fun _ => P :=
      Statement.ends h hs.1 fun u hu' => hu u (List.mem_append_left _ hu')
    exact hfirst.bind fun _ =>
      Statement.ends_all h hs.2 fun u hu' => hu u (List.mem_append_right _ hu')

end

end

end PL0
