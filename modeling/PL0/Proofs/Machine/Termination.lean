import PL0.Proofs.Machine.Simulation
import PL0.Proofs.Machine.Truncation
import PL0.Proofs.Semantics.Bounded
import PL0.Proofs.Semantics.Scoping

/-!
# `Machine.Termination` — programs without loops stop

Where calls go inward (`Program.Inward`), a call runs a subprogram that lies inside the calling one,
since no assignment reaches the slot of a procedure. So calls are nested at most as deeply as blocks
are, and without loops the number of steps is bounded by the text (`Block.stepBound`).

Main statement: `Program.stops_within`, by induction on the gas of the interpreter that counts
levels (`Program.Inward.run_ends`), which the machine agrees with.
-/

namespace PL0

open Clocked Static

/-! ## How long a subprogram takes

The bound counts the instructions of the text, those of a procedure anew for each call. Where a
block calls procedures, it does not say which: the longest of them stands for all, so that a name
need not be resolved to read off the bound. -/

mutual

/-- The steps that the code of a block takes at most: the `INT`, two for each constant and three for
    each procedure, the statement part and the `OPR 0 0`. A call takes its `CAL` and what the
    longest of the procedures takes. -/
def Block.stepBound : Block → Nat
  | .mk consts _ ps body =>
    1 + (2 * consts.length + 3 * ps.length + (body.cost (1 + Procedure.stepBounds ps) + 1))

/-- A procedure takes what its block takes. -/
def Procedure.stepBound : Procedure → Nat
  | .mk _ b => b.stepBound

/-- The bound of the longest of the procedures; it is 0 where there are none. -/
def Procedure.stepBounds : List Procedure → Nat
  | [] => 0
  | p :: ps => max p.stepBound (Procedure.stepBounds ps)

end

/-- The name of a procedure takes no time. -/
theorem Procedure.stepBound_eq (q : Procedure) : q.stepBound = q.block.stepBound := by
  cases q
  rfl

/-- No procedure takes longer than the longest. -/
theorem Procedure.stepBound_le {q : Procedure} {ps : List Procedure} (hq : q ∈ ps) :
    q.stepBound ≤ Procedure.stepBounds ps := by
  induction ps with
  | nil => cases hq
  | cons p ps ih =>
    rcases List.mem_cons.1 hq with rfl | hq
    · exact Nat.le_max_left _ _
    · exact Nat.le_trans (ih hq) (Nat.le_max_right _ _)

namespace Subprogram

variable {s t : Subprogram}

/-- The bound of a block, written with the parts of the block. -/
theorem stepBound_eq (s : Subprogram) : s.block.stepBound =
    1 + (2 * s.block.consts.length + 3 * s.block.procedures.length +
      (s.block.body.cost (1 + Procedure.stepBounds s.block.procedures) + 1)) := by
  obtain ⟨name, entry, outer, consts, vars, ps, body⟩ := s
  rfl

/-- A subprogram inside another belongs to one of its procedures. -/
theorem stepBound_inner (ht : t ∈ s.inner) :
    t.block.stepBound ≤ Procedure.stepBounds s.block.procedures := by
  obtain ⟨q, hq, -, hb⟩ := exists_procedure ht
  rw [hb, ← Procedure.stepBound_eq]
  exact Procedure.stepBound_le hq

end Subprogram

/-- No statement of the program is a `while`. -/
def Program.LoopFree (p : Program) : Prop := ∀ s ∈ p.subprograms, s.block.body.LoopFree

instance (p : Program) : Decidable p.LoopFree :=
  inferInstanceAs (Decidable (∀ s ∈ p.subprograms, s.block.body.LoopFree))

/-! ## What actions leave of the blocks

Time is bounded only as long as calls go where the text says. For this the slots of procedures must
hold their entry addresses, which `Kept` asks for; the values of variables do not matter. -/

/-- The blocks are those of activations of the subprograms of the path. -/
def Kept (path : List Subprogram) (store : Store) : Prop := ∃ st, Holds path st store

section

variable {gas : Nat} {path : List Subprogram} {s : Subprogram}

/-- What is fetched leaves the blocks as they are. -/
theorem keeps_fetch (level slot : Nat) :
    Keeps (Kept path) (Store.fetch level slot) fun _ => Kept path := by
  rintro ⟨memory, input, output⟩ ⟨st, hst⟩
  unfold Store.fetch
  cases memory.cell level slot with
  | none => trivial
  | some cell =>
    cases cell with
    | slot l k v => exact ⟨st, hst⟩
    | output => trivial
    | input =>
      cases input with
      | nil => trivial
      | cons v input => exact ⟨{ st with input }, hst.length, hst.blocks, rfl, hst.observed.2⟩

/-- Fetching by name, which may find nothing to fetch. -/
theorem keeps_denote_fetch (env : Environment) (name : String) :
    Keeps (Kept path) (env.denote name Store.fetch) fun _ => Kept path := by
  cases hresolve : env.resolve name with
  | none =>
    rw [denote_eq_throw hresolve]
    exact fun _ _ => trivial
  | some a =>
    rw [denote_eq hresolve]
    exact keeps_fetch _ _

/-- An assignment of the text asks for nothing and promises nothing. What it does to the slots is
    known from `Around.store_alike`. -/
theorem keeps_store (visible : Visible) (x : Ident) (v : Int) :
    Keeps (fun _ => True) (Static.store visible x v) fun _ _ => True := by
  intro st _
  unfold Static.store
  cases visible.dataLevel? x.name with
  | none => trivial
  | some k => trivial

/-- A block is opened, or too large. -/
theorem keeps_openBlock (hnd : s.block.names.Nodup) :
    Keeps (Kept path) (Store.openBlock s.block.names.dedup.length)
      fun _ store => ∃ st, Filling path s [] s.block.decls.length st store := by
  rintro store ⟨st, hst⟩
  rw [hnd.dedup, Block.names_eq, List.length_map]
  unfold Store.openBlock Memory.enter?
  by_cases hsize : s.block.decls.length ≤ maxBlockSize
  · rw [if_pos hsize]
    exact ⟨_, st, store, hst, rfl, rfl⟩
  · rw [if_neg hsize]
    trivial

/-- What is declared is stored in two steps for a constant and three for a procedure. -/
theorem prologue_ends (hnd : (s.block.decls.map Decl.name).Nodup) :
    Ends gas (fun store => ∃ st, Filling path s [] s.block.decls.length st store)
      (2 * s.block.consts.length + 3 * s.block.procedures.length) s.prologue
      fun _ => Kept (s :: path) := by
  refine Ends.of_related (Filling.prologue_related hnd) ?_
  have htwo : Ends gas (fun _ : State => True) 2 (do pause; pause) fun _ _ => True :=
    Ends.pause.bind fun _ => Ends.pause
  have hthree : Ends gas (fun _ : State => True) 3 (do pause; pause; pause) fun _ _ => True :=
    Ends.pause.bind fun _ => htwo
  have hconsts := Ends.each (fun _ => 2) fun (_ : ConstDecl) (_ : _ ∈ s.block.consts) => htwo
  have hinner := Ends.each (fun _ => 3) fun (_ : Procedure) (_ : _ ∈ s.block.procedures) => hthree
  rw [List.map_const', List.sum_replicate, smul_eq_mul, Nat.mul_comm] at hconsts hinner
  exact hconsts.bind fun _ => hinner

/-- Closing a block leaves those around it. -/
theorem keeps_closeBlock :
    Keeps (Kept (s :: path)) Store.closeBlock fun _ => Kept path :=
  Keeps.of_alike Program.leave_alike fun _ _ => trivial

end

/-! ## Runs of subprograms

By induction on the gas. A call is bounded by the subprogram that it runs, which lies inside the
calling one, and the bound of the calling one has room for it. -/

namespace Program

variable {p : Program} {code : Array Instruction} {s : Subprogram} {path : List Subprogram}
  {outer : Visible} {gas : Nat}

/-- **A call** loads the entry address of a procedure of the calling block. It ends if the run of
    this procedure does. -/
theorem Inward.call_ends (hp : p.Inward) (hn : p.Nested (s :: path))
    (ha : Around outer s.outer path)
    (hrun : ∀ t ∈ s.inner, ∀ visible, Around visible t.outer (s :: path) →
      Ends gas (Kept (s :: path)) t.block.stepBound (p.run gas t) fun _ => Kept (s :: path))
    {f : Ident} (hf : .callee f ∈ s.block.body.uses) :
    Ends gas (Kept (s :: path)) (1 + Procedure.stepBounds s.block.procedures)
      ((s.scopes.access (p.dispatch gas)).call f) fun _ => Kept (s :: path) := by
  obtain ⟨q, visible, a, u, hu, -, hresolve, hlevel, -, hau, himage⟩ := hp.callee hn ha hf
  have hload : Keeps (Kept (s :: path)) (s.scopes.denote f.name Store.fetch)
      fun v store => v = (u.entry : Int) ∧ Kept (s :: path) store := by
    rintro store ⟨st, hst⟩
    obtain ⟨F, -, hb⟩ := hst.level (k := 0) (s := s) rfl
    rw [denote_eq hresolve, hlevel, Store.fetch_of_slot hb (himage F)]
    exact ⟨rfl, st, hst⟩
  have hat : p.subprogramAt? u.entry = some u :=
    subprogramAt?_eq_some_iff.2 ⟨rfl, _, .inner hn hu⟩
  refine (Ends.act hload).bind fun v => ?_
  rintro n store hgas hcost ⟨rfl, hkept⟩
  have hcalled : Ends gas (Kept (s :: path)) (Procedure.stepBounds s.block.procedures)
      (p.run gas u) fun _ => Kept (s :: path) :=
    (hrun u hu visible hau).mono (Subprogram.stepBound_inner hu)
  unfold dispatch
  rw [hat]
  exact hcalled n store hgas hcost hkept

/-- Whatever the statement part does keeps the blocks around. -/
theorem Inward.access_keeps (hp : p.Inward) (hn : p.Nested (s :: path))
    (ha : Around outer s.outer path)
    (hrun : ∀ t ∈ s.inner, ∀ visible, Around visible t.outer (s :: path) →
      Ends gas (Kept (s :: path)) t.block.stepBound (p.run gas t) fun _ => Kept (s :: path)) :
    (s.scopes.access (p.dispatch gas)).Keeps gas (Kept (s :: path)) s.block.body.uses
      (1 + Procedure.stepBounds s.block.procedures) where
  load x _ := keeps_denote_fetch _ _
  store x v hx := by
    have hord : x.Ordinary := hp.portFree.nested hn s (List.mem_cons_self ..) x
      (Block.mem_idents_of_body (Statement.ident_mem_idents hx))
    have hallows := (hp.uses s (mem_subprograms_iff.2 ⟨path, hn⟩) _ hx).resolve_left id
    exact Keeps.of_alike (ha.within.store_alike (hp.nodup hn) hord hallows v)
      (keeps_store _ _ _)
  read := keeps_denote_fetch _ _
  write v := Keeps.of_alike (hp.portFree.write_alike hn v) fun _ _ => trivial
  call f hf := hp.call_ends hn ha hrun hf

/-- **A subprogram ends** within its bound, wherever the blocks open are those around its text. -/
theorem Inward.run_ends (hp : p.Inward) (hl : p.LoopFree) (gas : Nat) {s : Subprogram}
    {path : List Subprogram} {outer : Visible} (hn : p.Nested (s :: path))
    (ha : Around outer s.outer path) :
    Ends gas (Kept path) s.block.stepBound (p.run gas s) fun _ => Kept path := by
  induction gas generalizing s path outer with
  | zero => exact fun n _ hgas => absurd hgas (Nat.not_lt_zero n)
  | succ gas ih =>
    have hsub : s ∈ p.subprograms := mem_subprograms_iff.2 ⟨path, hn⟩
    have hkeeps := hp.access_keeps hn ha fun t ht visible hat => ih (.inner hn ht) hat
    have hbody := Statement.ends hkeeps (hl s hsub) fun u hu => hu
    have hnd := hp.nodup hn s (List.mem_cons_self ..)
    rw [run_succ, Subprogram.stepBound_eq]
    unfold Subprogram.activation
    simp only [bind_assoc]
    refine Ends.act_bind (keeps_openBlock (hp.distinct s hsub)) fun _ => ?_
    refine (prologue_ends hnd).bind fun _ => hbody.bind fun _ => ?_
    exact Ends.act keeps_closeBlock

/-- Without limits on the sink: the machine agrees with the interpreter, and the interpreter has
    come to an end when the time of the bound is over. -/
theorem Inward.free_stops (hp : p.Inward) (hl : p.LoopFree) (hc : p.compile.1 = .ok code)
    (input : List Int) :
    let r := Run.advance p.block.stepBound (Run.start (Machine.load code input .unlimited))
    r.outcome = .halted ∨ ∃ x f, r.outcome = .fault x f := by
  intro r
  have hkept : Kept [] ⟨Memory.empty, input, []⟩ := ⟨⟨[], input, []⟩, rfl, rfl, rfl, rfl⟩
  have haround : Around [] p.main.outer [] := ⟨rfl, rfl, .nil⟩
  have hends := hp.run_ends hl (p.block.stepBound + 1) .main haround p.block.stepBound _
    (Nat.lt_succ_self _) (Nat.le_refl _) hkept
  have hagrees := interpret_agrees hc input p.block.stepBound
  unfold interpret at hagrees
  -- Of the ways to end, no time left and a call of a stray value are excluded by `run_ends`, and an
  -- unbound name by the agreement.
  rcases hr : p.run (p.block.stepBound + 1) p.main (p.block.stepBound, ⟨Memory.empty, input, []⟩)
    with ⟨u, left, st⟩ | ⟨_ | f | v | _, left, st⟩
  · rw [hr] at hagrees
    exact .inl hagrees.1
  · rw [hr] at hends
    exact hends.elim
  · rw [hr] at hagrees
    obtain ⟨x, hx, -⟩ := hagrees
    exact .inr ⟨x, f, hx⟩
  · rw [hr] at hends
    exact hends.elim
  · rw [hr] at hagrees
    exact hagrees.elim

/-- **Programs without loops stop.** Where no identifier is spelled like a channel, no block declares
    a name twice, every call names a procedure of its own block, and nothing is assigned to a
    procedure or read into one, the code of a program without `while` has halted or ended with a
    fault within a number of steps that the text gives, whatever the input. If the sink has limits,
    it may also have refused a value. -/
theorem stops_within (hc : p.compile.1 = .ok code) (hp : p.Inward) (hl : p.LoopFree)
    (input : List Int) (full stuck : Option Nat) :
    let r := Run.advance p.block.stepBound
      (Run.start (Machine.load code input (.limited full stuck)))
    r.outcome = .halted ∨ (∃ x f, r.outcome = .fault x f) ∨
      ∃ n e, Sink.refusal? full stuck = some (n, e) ∧ r.outcome = .refused e := by
  intro r
  rcases Run.outcome_limited code input full stuck p.block.stepBound with hsame | hrefused
  · rw [hsame]
    exact (hp.free_stops hl hc input).imp_right .inl
  · exact .inr (.inr hrefused)

/-- The program
    `var a, b; procedure p; var c; procedure q; begin a := a - 1; write(a / b) end;
    begin c := q; if a > 0 then call q; call q end; begin read(a, b); call p; call p end .` -/
def quotients : Program :=
  let a : Ident := ⟨"a", 4⟩
  let b : Ident := ⟨"b", 7⟩
  let c : Ident := ⟨"c", 27⟩
  let f : Ident := ⟨"p", 20⟩
  let g : Ident := ⟨"q", 40⟩
  let value (x : Ident) : Factor := .ident x
  let number (v : Int) (i : Nat) : Factor := .number ⟨v, i⟩
  let single (x : Factor) : Expr := .mk none (.single (.single x))
  let inner : Block := .mk [] [] [] (.block [
    .assign a (.mk none (.join (.single (.single (value a))) .sub (.single (number 1 58)))),
    .write [.mk none (.single (.join (.single (value a)) .div (value b)))]])
  let outer : Block := .mk [] [c] [.mk g inner] (.block [
    .assign c (single (value g)),
    .ifThen (.compare (single (value a)) .gt (single (number 0 98))) (.call g),
    .call g])
  ⟨.mk [] [a, b] [.mk f outer] (.block [.read [a, b], .call f, .call f])⟩

/-- The code of `quotients`. -/
def quotientsCode : Array Instruction :=
  #[.make .int 0 3, .make .lit 0 4, .make .sto 0 2, .make .jmp 0 27,
    .make .int 0 2, .make .lit 0 8, .make .sto 0 1, .make .jmp 0 18,
    .make .int 0 0, .make .lod 2 0, .make .lit 0 1, .apply (.arith .sub), .make .sto 2 0,
    .make .lod 2 0, .make .lod 2 1, .apply (.arith .div), .make .sto 3 1, .leave,
    .make .lod 0 1, .make .sto 0 0, .make .lod 1 0, .make .lit 0 0, .apply (.relation .gt),
    .make .jpc 0 25, .make .cal 0 1, .make .cal 0 1, .leave,
    .make .lod 1 0, .make .sto 0 0, .make .lod 1 0, .make .sto 0 1, .make .cal 0 2,
    .make .cal 0 2, .leave]

/-- The code is that of the program. -/
theorem compile_quotients : quotients.compile.1 = .ok quotientsCode := by cbv

/-- `quotients` may take all the steps of its bound. -/
theorem quotients_stop :
    let run t := Run.advance t (Run.start (Machine.load quotientsCode [7, 2] .unlimited))
    quotients.Inward ∧ quotients.LoopFree ∧ quotients.block.stepBound = 77 ∧
      (run 76).outcome = .running ∧ (run 77).outcome ≠ .running := by
  intro run
  have hinward : quotients.Inward := by decide
  have hfree : quotients.LoopFree := by decide
  refine ⟨hinward, hfree, rfl, by decide +kernel, ?_⟩
  rcases stops_within compile_quotients hinward hfree [7, 2] none none with
    h | ⟨x, f, h⟩ | ⟨n, e, h, -⟩
  · exact ne_of_eq_of_ne h nofun
  · exact ne_of_eq_of_ne h nofun
  · cases h

end Program

end PL0
