import PL0.Proofs.Semantics.Image
import PL0.Proofs.Semantics.Related

/-!
# `Semantics.Scoping` — where levels agree with the text

In a program whose calls go to procedures of the calling block itself (`Program.Scoped`), every call
opens its block on top of exactly the blocks around the procedure. There, levels counted from the
top of the stack of blocks lead to the activations that the text means, and the blocks hold the
values of these activations (`Holds`).

Main statement: `Program.Nested.run_related`, by induction on the gas. The interpreter that counts
levels runs a subprogram as the block-structured meaning says.
-/

namespace PL0

open Clocked Static

/-! ## Programs whose calls stay in their block

A call opens its block on top of the stack. If the procedure is one of the block on top, the blocks
below are those around the procedure, and this remains so for the calls in it. A call of a procedure
from further outside would leave blocks in between, and levels would count them. -/

/-- What a statement may do with a name: call a procedure of the innermost block, and read or assign
    to anything but a procedure. -/
def Environment.Allows (env : Environment) : Use → Prop
  | .operand x => ∀ a ∈ env.resolve x.name, a.symbol.kind ≠ .procedure
  | .target x => ∀ a ∈ env.resolve x.name, a.symbol.kind ≠ .procedure
  | .callee f => ∃ a ∈ env.resolve f.name, a.level = 0 ∧ a.symbol.kind = .procedure

instance (env : Environment) : DecidablePred env.Allows
  | .operand x =>
    inferInstanceAs (Decidable (∀ a ∈ env.resolve x.name, a.symbol.kind ≠ .procedure))
  | .target x =>
    inferInstanceAs (Decidable (∀ a ∈ env.resolve x.name, a.symbol.kind ≠ .procedure))
  | .callee f => inferInstanceAs
      (Decidable (∃ a ∈ env.resolve f.name, a.level = 0 ∧ a.symbol.kind = .procedure))

/-- No identifier is spelled like a channel, a block declares no name twice and not too many, and
    statements call and use names as they may. -/
structure Program.Scoped (p : Program) : Prop where
  portFree : p.PortFree
  distinct : ∀ s ∈ p.subprograms, s.block.names.Nodup ∧ s.block.names.length ≤ maxBlockSize
  uses : ∀ s ∈ p.subprograms, ∀ u ∈ s.block.body.uses, s.scopes.Allows u

instance (p : Program) : Decidable p.Scoped :=
  decidable_of_iff (p.PortFree ∧
      (∀ s ∈ p.subprograms, s.block.names.Nodup ∧ s.block.names.length ≤ maxBlockSize) ∧
      ∀ s ∈ p.subprograms, ∀ u ∈ s.block.body.uses, s.scopes.Allows u)
    ⟨fun ⟨h, h', h''⟩ => ⟨h, h', h''⟩, fun ⟨h, h', h''⟩ => ⟨h, h', h''⟩⟩

/-- `countdown` calls its own procedure only. -/
theorem countdown_scoped : countdown.Scoped := by decide

/-- Less than that: blocks may have any size, and operands may stand for anything. Calls still go
    inward, from a block to one of its procedures. -/
structure Program.Inward (p : Program) : Prop where
  portFree : p.PortFree
  distinct : ∀ s ∈ p.subprograms, s.block.names.Nodup
  uses : ∀ s ∈ p.subprograms, ∀ u ∈ s.block.body.uses, u.IsOperand ∨ s.scopes.Allows u

instance (p : Program) : Decidable p.Inward :=
  decidable_of_iff (p.PortFree ∧ (∀ s ∈ p.subprograms, s.block.names.Nodup) ∧
      ∀ s ∈ p.subprograms, ∀ u ∈ s.block.body.uses, u.IsOperand ∨ s.scopes.Allows u)
    ⟨fun ⟨h, h', h''⟩ => ⟨h, h', h''⟩, fun ⟨h, h', h''⟩ => ⟨h, h', h''⟩⟩

namespace Program

variable {p : Program} {s : Subprogram} {path : List Subprogram}

/-- What is scoped goes inward. -/
theorem Scoped.inward (hp : p.Scoped) : p.Inward :=
  ⟨hp.portFree, fun s hs => (hp.distinct s hs).1, fun s hs u hu => .inr (hp.uses s hs u hu)⟩

/-- Each block on the path is one of a subprogram, so its names are distinct. -/
theorem Inward.nodup (hp : p.Inward) (hn : p.Nested path) :
    ∀ t ∈ path, (t.block.decls.map Decl.name).Nodup := by
  intro t ht
  obtain ⟨front, back, rfl⟩ := List.append_of_mem ht
  rw [← Block.names_eq]
  exact hp.distinct t (mem_subprograms_iff.2 ⟨back, hn.drop⟩)

end Program

/-! ## Names at a place

The same search, said twice: through the scopes that code generation opens, and through the
declarations that the text shows. `Around` ties the two to the path of subprograms, whose blocks are
the ones open when control is at the place. -/

/-- The scopes at a place and the subprograms around it, for what is visible there. -/
structure Around (visible : Visible) (env : Environment) (path : List Subprogram) : Prop where
  scopes : env.scopes = visible.map Scope.ofDecls
  base : env.base = Scope.channels
  decls : List.Forall₂ (fun ds t => ds <+: t.block.decls) visible path

namespace Around

variable {visible : Visible} {env : Environment} {path : List Subprogram} {s : Subprogram}

/-- Within a block all its declarations are visible. -/
theorem within (h : Around visible s.outer path) :
    Around (s.block.decls :: visible) s.scopes (s :: path) where
  scopes := by
    show s.block.scope :: s.outer.scopes = _
    rw [h.scopes, Block.scope_eq]
    rfl
  base := h.base
  decls := .cons (List.prefix_refl _) h.decls

/-- Names are resolved in the scopes of what is visible, and in that of the channels. -/
theorem resolve_eq (h : Around visible env path) (name : String) : env.resolve name =
    Environment.resolveIn name 0 (visible.map Scope.ofDecls ++ [Scope.channels]) := by
  unfold Environment.resolve Environment.frames
  rw [h.scopes, h.base]

/-- What a name means, and the subprogram around the place that declares it. -/
theorem meaning_cases (h : Around visible env path)
    (hnd : ∀ t ∈ path, (t.block.decls.map Decl.name).Nodup) {x : Ident} (hx : x.Ordinary) :
    match visible.meaning? x.name with
    | some m => ∃ t i, path[m.level]? = some t ∧ t.block.decls[i]? = some m.decl ∧
        m.decl.name = x.name ∧
        m.scope = t.block.decls.take (i + 1) :: visible.drop (m.level + 1) ∧
        env.resolve x.name = some ⟨m.level, ⟨m.decl.kind, m.decl.value?, i⟩⟩
    | none => env.resolve x.name = none := by
  have hnd' : ∀ ds ∈ visible, (ds.map Decl.name).Nodup := by
    intro ds hds
    obtain ⟨k, hk, rfl⟩ := List.getElem_of_mem hds
    have hk' : k < path.length := h.decls.length_eq ▸ hk
    exact (hnd _ (List.getElem_mem hk')).sublist ((h.decls.get hk hk').sublist.map _)
  have hm := Visible.meaning_cases hx hnd' 0
  rw [← h.resolve_eq] at hm
  cases hmean : visible.meaning? x.name with
  | none =>
    rw [hmean] at hm
    exact hm
  | some m =>
    rw [hmean] at hm
    obtain ⟨ds, i, hds, hi, hname, hscope, hresolve⟩ := hm
    obtain ⟨hk, rfl⟩ := List.getElem?_eq_some_iff.1 hds
    have hk' : m.level < path.length := h.decls.length_eq ▸ hk
    -- What is visible of a block is a first part of its declarations, at the same positions.
    have hfront : visible[m.level] <+: path[m.level].block.decls := h.decls.get hk hk'
    obtain ⟨back, hback⟩ := hfront
    have hlt := (List.getElem?_eq_some_iff.1 hi).1
    refine ⟨_, i, List.getElem?_eq_getElem hk', ?_, hname, ?_, ?_⟩
    · rw [← hback, List.getElem?_append_left hlt, hi]
    · rw [hscope, ← hback, List.take_append_of_le_length hlt]
    · rw [hresolve, Nat.zero_add]

/-- The name of a constant or variable leads to its slot. -/
theorem data_cases (h : Around visible env path)
    (hnd : ∀ t ∈ path, (t.block.decls.map Decl.name).Nodup) {x : Ident} (hx : x.Ordinary)
    (hkind : ∀ a ∈ env.resolve x.name, a.symbol.kind ≠ .procedure) :
    (∃ k t i d sym, visible.dataLevel? x.name = some k ∧ env.resolve x.name = some ⟨k, sym⟩ ∧
        sym.slot = i ∧ path[k]? = some t ∧ t.block.decls[i]? = some d ∧
        d.first?.isSome = true ∧ d.name = x.name) ∨
      visible.dataLevel? x.name = none ∧ env.resolve x.name = none := by
  have hm := h.meaning_cases hnd hx
  unfold Visible.dataLevel?
  cases hmean : visible.meaning? x.name with
  | none =>
    rw [hmean] at hm
    exact Or.inr ⟨rfl, hm⟩
  | some m =>
    rw [hmean] at hm
    obtain ⟨t, i, ht, hi, hname, -, hresolve⟩ := hm
    have hdata := Decl.kind_ne_procedure_iff.1 (hkind _ hresolve)
    simp only [hdata, if_true]
    exact Or.inl ⟨m.level, t, i, m.decl, _, rfl, hresolve, rfl, ht, hi, hdata, hname⟩

end Around

/-! ## Loads, stores and channels

One action of the text, and the action on the store that the interpreter takes for it. Both succeed
and hold the same values afterwards, or both fail for the same reason. -/

namespace Around

variable {visible : Visible} {env : Environment} {path : List Subprogram} {x : Ident}

/-- The slot of a name holds its value in the activation that the text means. -/
theorem load_alike (h : Around visible env path)
    (hnd : ∀ t ∈ path, (t.block.decls.map Decl.name).Nodup) (hx : x.Ordinary)
    (hkind : ∀ a ∈ env.resolve x.name, a.symbol.kind ≠ .procedure) :
    Alike Observed (Holds path) (load visible x) (env.denote x.name Store.fetch)
      (same (Holds path)) := by
  intro st store hst
  rcases h.data_cases hnd hx hkind with
    ⟨k, t, i, d, sym, hlevel, hresolve, rfl, ht, hd, hdata, hname⟩ | ⟨hlevel, hresolve⟩
  · obtain ⟨F, hF, hblock⟩ := hst.level ht
    refine Or.inl ⟨F x.name, F x.name, st, store, ?_, ?_, rfl, hst⟩
    · simp only [load, hlevel, hF]
    · rw [denote_eq hresolve]
      refine Store.fetch_of_slot hblock ?_
      rw [Subprogram.image_data hd hdata, hname]
  · refine Or.inr ⟨.unbound, st, store, ?_, ?_, by simp, hst.observed⟩
    · simp only [load, hlevel]
    · rw [denote_eq_throw hresolve]
      rfl

/-- An assignment changes the value there and the slot alike. No other slot is this one, since names
    are distinct. -/
theorem store_alike (h : Around visible env path)
    (hnd : ∀ t ∈ path, (t.block.decls.map Decl.name).Nodup) (hx : x.Ordinary)
    (hkind : ∀ a ∈ env.resolve x.name, a.symbol.kind ≠ .procedure) (v : Int) :
    Alike Observed (Holds path) (store visible x v)
      (env.denote x.name fun level slot => Store.put level slot v) (same (Holds path)) := by
  intro st store hst
  rcases h.data_cases hnd hx hkind with
    ⟨k, t, i, d, sym, hlevel, hresolve, rfl, ht, hd, hdata, hname⟩ | ⟨hlevel, hresolve⟩
  · obtain ⟨F, -, hblock⟩ := hst.level ht
    have hlt := (List.getElem?_eq_some_iff.1 (Subprogram.image_data (F := F) hd hdata)).1
    have hset := hst.set ht (hnd t (List.mem_of_getElem? ht)) hd hdata v
    rw [hname] at hset
    refine Or.inl ⟨(), (), _, _, ?_, ?_, rfl, hset⟩
    · simp only [Static.store, hlevel]
    · rw [denote_eq hresolve]
      exact Store.put_of_slot hblock hlt
  · refine Or.inr ⟨.unbound, st, store, ?_, ?_, by simp, hst.observed⟩
    · simp only [Static.store, hlevel]
    · rw [denote_eq_throw hresolve]
      rfl

end Around

namespace Program

variable {p : Program} {s : Subprogram} {path : List Subprogram} {visible : Visible}

/-- The port of the input channel is found from every depth, for no block declares its name. -/
theorem PortFree.read_alike (hp : p.PortFree) (hn : p.Nested (s :: path)) :
    Alike Observed (Holds (s :: path)) Static.read (s.scopes.denote readChannel Store.fetch)
      (same (Holds (s :: path))) := by
  obtain ⟨a, hresolve⟩ := hn.exists_channel channels_readChannel
  obtain ⟨hlevel, hslot⟩ := hn.resolve_readChannel hp hresolve
  rw [denote_eq hresolve, hlevel, hslot]
  intro st store hst
  obtain ⟨hin, hout⟩ := hst.observed
  have hcell := hst.input_cell
  -- Both have the same input, so it runs out for both.
  cases hinput : st.input with
  | nil =>
    rw [hinput] at hin
    refine Or.inr ⟨.fault .inputExhausted, st, store, ?_, ?_, by simp, hst.observed⟩
    · simp only [Static.read, hinput]
    · simp only [Store.fetch, Int.natCast_zero, hcell, ← hin]
  | cons v input =>
    rw [hinput] at hin
    refine Or.inl ⟨v, v, { st with input }, { store with input }, ?_, ?_, rfl, ?_⟩
    · simp only [Static.read, hinput]
    · simp only [Store.fetch, Int.natCast_zero, hcell, ← hin]
    · exact ⟨hst.length, hst.blocks, rfl, hout⟩

/-- So is the port of the output channel, and it takes every value. -/
theorem PortFree.write_alike (hp : p.PortFree) (hn : p.Nested (s :: path)) (v : Int) :
    Alike Observed (Holds (s :: path)) (Static.write v)
      (s.scopes.denote writeChannel fun level slot => Store.put level slot v)
      (same (Holds (s :: path))) := by
  obtain ⟨a, hresolve⟩ := hn.exists_channel channels_writeChannel
  obtain ⟨hlevel, hslot⟩ := hn.resolve_writeChannel hp hresolve
  rw [denote_eq hresolve, hlevel, hslot]
  intro st store hst
  obtain ⟨hin, hout⟩ := hst.observed
  have hcell := hst.output_cell
  refine Or.inl ⟨(), (), _, { store with output := store.output ++ [v] }, rfl, ?_, rfl, ?_⟩
  · simp only [Store.put, Int.natCast_one, hcell]
  · exact ⟨hst.length, hst.blocks, hin, congrArg (· ++ [v]) hout⟩

end Program

/-! ## Filling a block

A new block is all 0 on the one side, while on the other the frame has its first values at once. In
between, the block is filled slot by slot in the order of the declarations: constants, then
variables, for which 0 is right, then procedures. -/

/-- The states around with one more activation, which has its first values, and one more block,
    where the slots of `done` are stored already and `n` more are still 0. -/
def Filling (path : List Subprogram) (s : Subprogram) (done : List Int) (n : Nat) (st : State)
    (store : Store) : Prop :=
  ∃ st' store', Holds path st' store' ∧
    st = { st' with frames := Frame.first s.block.decls :: st'.frames } ∧
    store = { store' with memory := ⟨(done ++ List.replicate n 0) :: store'.memory.blocks⟩ }

namespace Filling

variable {path : List Subprogram} {s : Subprogram} {done : List Int} {n : Nat} {st : State}
  {store : Store} {x : Ident} {v : Int}

/-- Input and output are those of the states around. -/
theorem observed (h : Filling path s done n st store) : Observed st store := by
  obtain ⟨st', store', hst, rfl, rfl⟩ := h
  exact hst.observed

/-- The slots of variables stay 0. -/
theorem zeros {k : Nat} (h : Filling path s done (k + n) st store) :
    Filling path s (done ++ List.replicate k 0) n st store := by
  obtain ⟨st', store', hst, hst', hstore⟩ := h
  refine ⟨st', store', hst, hst', hstore.trans ?_⟩
  rw [List.append_assoc, List.replicate_append_replicate]

/-- When the last slot is stored, the block is the image of the first frame. -/
theorem holds (h : Filling path s done 0 st store)
    (hdone : done = s.image (Frame.first s.block.decls)) : Holds (s :: path) st store := by
  obtain ⟨st', store', hst, rfl, rfl⟩ := h
  refine ⟨congrArg (· + 1) hst.length, ?_, hst.observed⟩
  show (done ++ List.replicate 0 0) :: store'.memory.blocks = _
  rw [List.replicate_zero, List.append_nil, hdone, hst.blocks]
  rfl

/-- The meaning of the text only takes the time that pushing a value takes. -/
theorem literal_alike (R : State → Store → Prop) (v : Int) :
    Alike Observed R (pure ()) (pure v) fun _ w st store => w = v ∧ R st store :=
  fun st store hst => Or.inl ⟨(), v, st, store, rfl, rfl, rfl, hst⟩

/-- The next slot is stored. -/
theorem initialise_alike (hnd : (s.block.decls.map Decl.name).Nodup) {d : Decl}
    (hd : s.block.decls[done.length]? = some d) (hx : d.name = x.name) (v : Int) :
    Alike Observed (Filling path s done (n + 1)) (pure ()) (s.initialise (some x) v)
      (same (Filling path s (done ++ [v]) n)) := by
  rintro st store ⟨st', store', hst, rfl, rfl⟩
  have hget : s.block.scope.get? x.name = some ⟨d.kind, d.value?, done.length⟩ := by
    rw [Block.scope_eq, ← hx]
    exact (Scope.get?_ofDecls hnd).2 _ _ hd
  refine Or.inl ⟨(), (), _, _, rfl, ?_, rfl, st', store', hst, rfl, rfl⟩
  simp only [Subprogram.initialise, Option.bind_some, hget]
  refine (Store.put_of_slot (k := 0) rfl ?_).trans ?_
  · rw [List.length_append, List.length_replicate]
    omega
  · have hset : (done ++ List.replicate (n + 1) 0).set done.length v =
        done ++ [v] ++ List.replicate n 0 := by
      rw [List.set_append_right _ _ (Nat.le_refl _), Nat.sub_self, List.replicate_succ,
        List.set_cons_zero, List.append_assoc]
      rfl
    -- What is stored already is as long as the position of `d`, so the first 0 is its slot.
    rw [← hset]
    rfl

/-- The constants stand in front of all other declarations. -/
theorem consts_related (hnd : (s.block.decls.map Decl.name).Nodup) {front rest : List Decl}
    {ds : List ConstDecl} (hds : s.block.decls = front ++ ds.map .const ++ rest)
    (hdone : done.length = front.length) :
    Related Observed (Filling path s done (ds.length + n))
      (each (fun _ => do pause; pause) ds)
      (each (fun d => do
        let v ← act (pure d.value.value)
        act (s.initialise (some d.name) v)) ds)
      (same (Filling path s (done ++ ds.map (·.value.value)) n)) := by
  induction ds generalizing front done with
  | nil =>
    refine Related.pure fun st store hst => ⟨rfl, ?_⟩
    rwa [List.map_nil, List.append_nil, ← Nat.zero_add n]
  | cons d ds ih =>
    have hd : s.block.decls[done.length]? = some (.const d) := by
      rw [hds, hdone, List.append_assoc, List.getElem?_append_right (Nat.le_refl _), Nat.sub_self]
      rfl
    have hds' : s.block.decls = front ++ [.const d] ++ ds.map .const ++ rest := by
      rw [hds, List.map_cons, List.append_cons]
    have hdone' : (done ++ [d.value.value]).length = (front ++ [Decl.const d]).length := by
      rw [List.length_append, List.length_append, hdone]
      rfl
    have hrest := ih hds' hdone'
    rw [List.append_assoc] at hrest
    rw [List.length_cons, Nat.add_right_comm]
    refine Related.andThen ?_ fun _ => hrest
    -- The value and its store, for which the meaning of the text only takes the time.
    refine (Related.act (fun _ _ => observed) (literal_alike _ d.value.value)).bind fun _ v => ?_
    rintro m st store ⟨rfl, hst⟩
    exact Related.act (fun _ _ => observed) (initialise_alike hnd hd rfl _) m st store hst

/-- The procedures stand behind them; their slots hold the entry addresses. -/
theorem inner_related (hnd : (s.block.decls.map Decl.name).Nodup) {front : List Decl}
    {ps : List Procedure} (hps : s.block.decls = front ++ ps.map .procedure)
    (hdone : done.length = front.length) (env : Environment) (sc : Scope) (a : Nat) :
    Related Observed (Filling path s done ps.length)
      (each (fun _ => do pause; pause; pause) ps)
      (each (fun t => do
        let v ← act (pure (t.entry : Int))
        act (s.initialise t.name v)
        pause) (Subprogram.declared env sc a ps))
      (same (Filling path s
        (done ++ (Subprogram.declared env sc a ps).map fun t => (t.entry : Int)) 0)) := by
  induction ps generalizing front done sc a with
  | nil =>
    refine Related.pure fun st store hst => ⟨rfl, ?_⟩
    rwa [Subprogram.declared, List.map_nil, List.append_nil]
  | cons q ps ih =>
    have hd : s.block.decls[done.length]? = some (.procedure q) := by
      rw [hps, hdone, List.getElem?_append_right (Nat.le_refl _), Nat.sub_self]
      rfl
    have hps' : s.block.decls = front ++ [.procedure q] ++ ps.map .procedure := by
      rw [hps, List.map_cons, List.append_cons]
    have hdone' : (done ++ [((a + 3 : Nat) : Int)]).length =
        (front ++ [Decl.procedure q]).length := by
      rw [List.length_append, List.length_append, hdone]
      rfl
    have hrest := ih hps' hdone' (sc.declareProcedure q) (a + q.codeSize)
    rw [List.append_assoc] at hrest
    refine Related.andThen ?_ fun _ => hrest
    refine (Related.act (fun _ _ => observed) (literal_alike _ _)).bind fun _ v => ?_
    rintro m st store ⟨rfl, hst⟩
    have hstore : Related Observed (Filling path s done (ps.length + 1)) pause
        (act (s.initialise (some q.name) ((a + 3 : Nat) : Int))) _ :=
      Related.act (fun _ _ => observed) (initialise_alike hnd hd rfl _)
    exact hstore.andThen (fun _ => Related.pause fun _ _ => observed) m st store hst

/-- All that is declared is stored. -/
theorem prologue_related (hnd : (s.block.decls.map Decl.name).Nodup) :
    Related Observed (Filling path s [] s.block.decls.length)
      (do
        each (fun _ => do pause; pause) s.block.consts
        each (fun _ => do pause; pause; pause) s.block.procedures)
      s.prologue (same (Holds (s :: path))) := by
  have hsize : s.block.decls.length =
      s.block.consts.length + (s.block.vars.length + s.block.procedures.length) := by
    simp only [Block.decls, Block.data, List.length_append, List.length_map, Nat.add_assoc]
  have hdecls : s.block.decls = [] ++ s.block.consts.map .const ++
      (s.block.vars.map .var ++ s.block.procedures.map .procedure) := List.append_assoc ..
  have hdone : ([] ++ s.block.consts.map (fun d : ConstDecl => d.value.value) ++
      List.replicate s.block.vars.length 0).length = s.block.data.length := by
    simp only [Block.data, List.nil_append, List.length_append, List.length_map,
      List.length_replicate]
  have hinner : Related Observed (Filling path s _ s.block.procedures.length) _ _ _ :=
    inner_related hnd rfl hdone s.outer s.block.dataScope s.proceduresStart
  rw [hsize]
  refine (consts_related hnd hdecls rfl).andThen fun _ => ?_
  exact hinner.mono (fun _ _ h => h.zeros) fun _ _ h => h.holds (Subprogram.image_first hnd).symm

end Filling

/-! ## Running subprograms

By induction on the gas: a call runs its subprogram with less, and the path of the called one is the
path of the caller with one subprogram more. -/

/-- To leave out no block is to leave the state as it is. -/
theorem outward_zero (c : Clocked State Unit) : outward 0 c = c := by
  funext ⟨n, st⟩
  unfold outward
  simp only [List.drop_zero, List.take_zero, List.nil_append]
  rcases c (n, st) with ⟨u, m, t⟩ | ⟨e, m, t⟩ <;> rfl

namespace Program

variable {p : Program} {s : Subprogram} {path : List Subprogram} {outer : Visible}

/-- A name that a statement part calls stands for a procedure of the block around it. What this
    procedure sees are the scopes of its subprogram, and every activation of the block has the entry
    address of this subprogram in the slot of the name. -/
theorem Inward.callee (hp : p.Inward) (hn : p.Nested (s :: path)) (ha : Around outer s.outer path)
    {f : Ident} (hf : .callee f ∈ s.block.body.uses) :
    ∃ q visible a, ∃ u ∈ s.inner,
      Visible.meaning? f.name (s.block.decls :: outer) = some ⟨0, .procedure q, visible⟩ ∧
      s.scopes.resolve f.name = some a ∧ a.level = 0 ∧ u.block = q.block ∧
      Around visible u.outer (s :: path) ∧
      ∀ F, (s.image F)[a.symbol.slot]? = some (u.entry : Int) := by
  have hsub : s ∈ p.subprograms := mem_subprograms_iff.2 ⟨path, hn⟩
  have hord : f.Ordinary := hp.portFree.nested hn s (List.mem_cons_self ..) f
    (Block.mem_idents_of_body (Statement.ident_mem_idents hf))
  obtain ⟨a, hresolve, hlevel, hkind⟩ := (hp.uses s hsub _ hf).resolve_left id
  have hm := ha.within.meaning_cases (hp.nodup hn) hord
  cases hmean : Visible.meaning? f.name (s.block.decls :: outer) with
  | none =>
    rw [hmean, hresolve] at hm
    cases hm
  | some m =>
    rw [hmean] at hm
    obtain ⟨t, i, ht, hi, hname, hscope, hresolve'⟩ := hm
    obtain rfl : a = _ := Option.some.inj (hresolve.symm.trans hresolve')
    obtain ⟨k, decl, scope⟩ := m
    simp only at hlevel hkind ht hi hname hscope hresolve'
    subst hlevel hscope
    -- The level is 0, so the procedure is one of the calling block.
    obtain rfl : s = t := Option.some.inj ht
    obtain ⟨q, rfl⟩ := Decl.exists_of_kind hkind
    -- The subprogram of the procedure stands where the text says: its scopes are those of what the
    -- procedure sees, and no assignment has changed its entry address.
    obtain ⟨u, hu, hblock, houter, himage⟩ := Subprogram.exists_inner hi
    refine ⟨q, _, _, u, hu, rfl, hresolve', rfl, hblock, ⟨?_, ?_, ?_⟩, himage⟩
    · rw [houter]
      show _ :: s.outer.scopes = _
      rw [ha.scopes]
      rfl
    · rw [houter]
      exact ha.base
    · exact .cons (List.take_prefix _ _) ha.decls

/-- **A call** of a procedure of the innermost block runs the subprogram of this procedure, around
    which the same blocks are open as around its text. -/
theorem Scoped.call_related (hp : p.Scoped) (hn : p.Nested (s :: path))
    (ha : Around outer s.outer path) {gas : Nat}
    (hrun : ∀ {t : Subprogram} {visible : Visible}, p.Nested (t :: s :: path) →
      Around visible t.outer (s :: path) → Related Observed (Holds (s :: path))
        (Static.run gas visible t.block) (p.run gas t) (same (Holds (s :: path))))
    {f : Ident} (hf : .callee f ∈ s.block.body.uses) :
    Related Observed (Holds (s :: path)) (call (s.block.decls :: outer) (Static.run gas) f)
      ((s.scopes.access (p.dispatch gas)).call f) (same (Holds (s :: path))) := by
  obtain ⟨q, visible, a, u, hu, hmean, hresolve, hlevel, hblock, hau, himage⟩ :=
    hp.inward.callee hn ha hf
  have hnu : p.Nested (u :: s :: path) := .inner hn hu
  show Related Observed _ (call (s.block.decls :: outer) (Static.run gas) f)
    (act (s.scopes.denote f.name Store.fetch) >>= p.dispatch gas) _
  unfold call
  rw [hmean, denote_eq hresolve, hlevel]
  refine Related.bind (P := fun _ v st store => v = (u.entry : Int) ∧ Holds (s :: path) st store)
    (Related.act (fun _ _ h => h.observed) ?_) fun _ v => ?_
  · intro st store hst
    obtain ⟨F, -, hb⟩ := hst.level (k := 0) (s := s) rfl
    exact Or.inl ⟨(), u.entry, st, store, rfl, Store.fetch_of_slot hb (himage F), rfl, hst⟩
  · rintro n st store ⟨rfl, hst⟩
    have hat : p.subprogramAt? u.entry = some u := subprogramAt?_eq_some_iff.2 ⟨rfl, _, hnu⟩
    unfold dispatch
    rw [outward_zero, hat, ← hblock]
    exact hrun hnu hau n st store hst

/-- What the statement part uses is there on both sides. -/
theorem Scoped.access_related (hp : p.Scoped) (hn : p.Nested (s :: path))
    (ha : Around outer s.outer path) {gas : Nat}
    (hrun : ∀ {t : Subprogram} {visible : Visible}, p.Nested (t :: s :: path) →
      Around visible t.outer (s :: path) → Related Observed (Holds (s :: path))
        (Static.run gas visible t.block) (p.run gas t) (same (Holds (s :: path)))) :
    (access (s.block.decls :: outer) (Static.run gas)).Related Observed (Holds (s :: path))
      s.block.body.uses (s.scopes.access (p.dispatch gas)) := by
  have hord : ∀ u ∈ s.block.body.uses, u.ident.Ordinary := fun u hu =>
    hp.portFree.nested hn s (List.mem_cons_self ..) _
      (Block.mem_idents_of_body (Statement.ident_mem_idents hu))
  have hallows := hp.uses s (mem_subprograms_iff.2 ⟨path, hn⟩)
  have hnd := hp.inward.nodup hn
  exact {
    obs := fun _ _ h => h.observed
    load := fun x hx => ha.within.load_alike hnd (hord _ hx) (hallows _ hx)
    store := fun x v hx => ha.within.store_alike hnd (hord _ hx) (hallows _ hx) v
    read := hp.portFree.read_alike hn
    write := hp.portFree.write_alike hn
    call := fun f hf => hp.call_related hn ha hrun hf }

/-- The block of a subprogram is opened. -/
theorem Scoped.enter_alike (hp : p.Scoped) (hn : p.Nested (s :: path)) :
    Alike Observed (Holds path) (enter s.block.decls)
      (Store.openBlock s.block.names.dedup.length)
      (same (Filling path s [] s.block.decls.length)) := by
  intro st store hst
  obtain ⟨hnd, hsize⟩ := hp.distinct s (mem_subprograms_iff.2 ⟨path, hn⟩)
  have henter : store.memory.enter? s.block.names.length =
      some ⟨List.replicate s.block.names.length 0 :: store.memory.blocks⟩ := if_pos hsize
  rw [hnd.dedup]
  refine Or.inl ⟨(), (), _, _, rfl, ?_, rfl, st, store, hst, rfl, rfl⟩
  simp only [Store.openBlock, henter]
  rw [Block.names_eq, List.length_map]
  rfl

/-- Its block is closed. -/
theorem leave_alike :
    Alike Observed (Holds (s :: path)) leave Store.closeBlock (same (Holds path)) := by
  intro st store hst
  obtain ⟨frames, input, output⟩ := st
  obtain ⟨hlength, hblocks, hobs⟩ := hst
  cases frames with
  | nil => cases hlength
  | cons F frames =>
    have hexit : store.memory.exit? = some ⟨List.zipWith Subprogram.image path frames⟩ := by
      unfold Memory.exit?
      rw [hblocks]
      rfl
    refine Or.inl ⟨(), (), ⟨frames, input, output⟩, { store with memory := ⟨_⟩ }, rfl, ?_, rfl,
      ⟨Nat.succ.inj hlength, rfl, hobs⟩⟩
    simp only [Store.closeBlock, hexit]

/-- **A subprogram runs** as the block-structured meaning of its block says, wherever the blocks
    open are those around its text. -/
theorem Scoped.run_related (hp : p.Scoped) (gas : Nat) {s : Subprogram} {path : List Subprogram}
    {outer : Visible} (hn : p.Nested (s :: path)) (ha : Around outer s.outer path) :
    Related Observed (Holds path) (Static.run gas outer s.block) (p.run gas s)
      (same (Holds path)) := by
  induction gas generalizing s path outer with
  | zero => exact Related.throw (by simp) fun _ _ h => h.observed
  | succ gas ih =>
    have hnd := hp.inward.nodup hn s (List.mem_cons_self ..)
    have hbody := Statement.related (hp.access_related hn ha ih) gas (s := s.block.body)
      fun u hu => hu
    have hleave : Related Observed (Holds (s :: path)) (act leave) (act Store.closeBlock) _ :=
      Related.act (fun _ _ h => h.observed) leave_alike
    have h := (Related.act (fun _ _ h => h.observed) (hp.enter_alike hn)).andThen fun _ =>
      (Filling.prologue_related hnd).andThen fun _ => hbody.andThen fun _ => hleave
    -- Both sides open the block, store what is declared, run the statement part and close.
    rw [run_succ]
    simpa only [Static.run, Subprogram.activation, bind_assoc] using h

end Program

end PL0
