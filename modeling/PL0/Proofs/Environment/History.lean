import PL0.Proofs.Codegen.Names

/-!
# `Environment.History` — environments and what was done to them

Every environment comes about by a sequence of calls (`Environment.Op`). What its scopes hold is
read off this sequence alone: a `Journal` keeps, for each scope that is still open, all declarations
made in it, the repeated ones too. A scope holds exactly the first declarations of its journal,
numbered in their order (`Scope.Records`), and a search finds the innermost scope whose journal has
the name.

Main statement: `Environment.refines_journal`. Its second part is about calls that open a scope and
close it again: they leave no trace (`Environment.Balanced`).
-/

namespace PL0

/-- A declaration as it is made: a name, its kind and its value. -/
structure Journal.Entry where
  name : String
  kind : SymbolKind
  value : Option Int
deriving DecidableEq

namespace Environment

open Journal (Entry)

/-- A call on an environment. -/
inductive Op where
  | enter
  | exit
  | define (e : Entry)
  | resolve (name : String)
deriving DecidableEq

/-- The environment after a call. The base scope is never left. -/
def Op.apply (env : Environment) : Op → Environment
  | enter => env.enter
  | exit =>
    match env.exit? with
    | some (_, env) => env
    | none => env
  | define e => (env.define e.name e.kind e.value).2
  | resolve _ => env

/-- The environment after a sequence of calls. -/
def after (env : Environment) (ops : List Op) : Environment := ops.foldl Op.apply env

theorem after_append (env : Environment) (ops ops' : List Op) :
    env.after (ops ++ ops') = (env.after ops).after ops' := List.foldl_append

theorem after_concat (env : Environment) (ops : List Op) (op : Op) :
    env.after (ops ++ [op]) = op.apply (env.after ops) := after_append env ops [op]

end Environment

/-! ## Journals -/

/-- The declarations made in each scope that is open, oldest first and with repetitions; innermost
scope first. -/
structure Journal where
  scopes : List (List Journal.Entry)
  base : List Journal.Entry

namespace Journal

open Environment (Op)

/-- At first the base scope declares the channels. -/
def initial : Journal := ⟨[], [⟨readChannel, .var, none⟩, ⟨writeChannel, .var, none⟩]⟩

/-- The journals of all scopes, innermost first. -/
def frames (j : Journal) : List (List Entry) := j.scopes ++ [j.base]

/-- The journal after a call. -/
def note (j : Journal) : Op → Journal
  | .enter => { j with scopes := [] :: j.scopes }
  | .exit => { j with scopes := j.scopes.tail }
  | .define e =>
    match j.scopes with
    | [] => { j with base := j.base ++ [e] }
    | es :: ess => { j with scopes := (es ++ [e]) :: ess }
  | .resolve _ => j

/-- The journal after a sequence of calls. -/
def after (j : Journal) (ops : List Op) : Journal := ops.foldl note j

end Journal

/-- **The scope holds the first declarations of the journal.** They have the slots from 0 on, in
    their order, each with the kind and the value that it was first declared with. -/
structure Scope.Records (s : Scope) (es : List Journal.Entry) : Prop where
  slots : s.symbols.map (·.2.slot) = List.range s.size
  order : s.names.Pairwise fun x y =>
    (es.map (·.name)).idxOf x < (es.map (·.name)).idxOf y
  get? : ∀ x, s.get? x =
    (es.find? fun e => e.name == x).map fun e => ⟨e.kind, e.value, s.names.idxOf x⟩

namespace Scope.Records

open Journal (Entry)

variable {s : Scope} {es : List Entry} {x : String}

/-- The scope lacks exactly the names that no declaration of the journal is about. -/
theorem find?_eq_none_iff (h : s.Records es) :
    (es.find? fun e => e.name == x) = none ↔ x ∉ s.names := by
  rw [← get?_eq_none_iff, h.get?, Option.map_eq_none_iff]

theorem mem_names_iff (h : s.Records es) : x ∈ s.names ↔ x ∈ es.map Entry.name := by
  have hnone : x ∉ s.names ↔ x ∉ es.map Entry.name := by
    rw [← h.find?_eq_none_iff]
    simp
  exact not_iff_not.1 hnone

theorem sound (h : s.Records es) : s.Sound where
  slots := h.slots
  nodup := h.order.imp fun hlt heq => by
    subst heq
    exact Nat.lt_irrefl _ hlt

theorem nil : Scope.empty.Records [] := ⟨rfl, List.Pairwise.nil, fun _ => rfl⟩

/-- Later declarations leave the names of the scope in the order of their first ones. -/
theorem order_append (h : s.Records es) (es' : List Entry) :
    s.names.Pairwise fun x y =>
      ((es ++ es').map (·.name)).idxOf x < ((es ++ es').map (·.name)).idxOf y := by
  refine List.Pairwise.imp_of_mem ?_ h.order
  intro x y hx hy hlt
  rw [List.map_append, List.idxOf_append_of_mem (h.mem_names_iff.1 hx),
    List.idxOf_append_of_mem (h.mem_names_iff.1 hy)]
  exact hlt

/-- The declaration of a name that the scope has is noted, but changes nothing. -/
theorem note_old (h : s.Records es) {e : Entry} (he : e.name ∈ s.names) :
    s.Records (es ++ [e]) where
  slots := h.slots
  order := h.order_append [e]
  get? := by
    intro x
    rw [h.get?, List.find?_append]
    cases hfind : es.find? fun e => e.name == x with
    | some f => rfl
    | none =>
      have hne : ¬ e.name = x := fun heq => h.find?_eq_none_iff.1 hfind (heq ▸ he)
      simp [hne]

/-- The declaration of a new name adds it with the next slot. -/
theorem note_new (h : s.Records es) {e : Entry} (he : e.name ∉ s.names) :
    Records ⟨s.symbols ++ [(e.name, ⟨e.kind, e.value, s.size⟩)]⟩ (es ++ [e]) := by
  have hnames : (Scope.mk (s.symbols ++ [(e.name, ⟨e.kind, e.value, s.size⟩)])).names =
      s.names ++ [e.name] := by simp [names]
  have hmem : e.name ∉ es.map Entry.name := fun hm => he (h.mem_names_iff.2 hm)
  constructor
  · simp [h.slots, size, List.range_succ]
  · rw [hnames, List.pairwise_append]
    refine ⟨h.order_append [e], List.pairwise_singleton _ _, ?_⟩
    intro x hx y hy
    rw [List.mem_singleton.1 hy, List.map_append,
      List.idxOf_append_of_mem (h.mem_names_iff.1 hx), List.idxOf_append_of_notMem hmem]
    have hlt := List.idxOf_lt_length_of_mem (h.mem_names_iff.1 hx)
    omega
  · intro x
    rw [get?_append_singleton, h.get?, hnames, List.find?_append]
    cases hfind : es.find? fun e => e.name == x with
    | some f =>
      have hx : x ∈ s.names := by
        by_contra hx
        rw [h.find?_eq_none_iff.2 hx] at hfind
        cases hfind
      rw [List.idxOf_append_of_mem hx]
      rfl
    | none =>
      rw [List.idxOf_append_of_notMem (h.find?_eq_none_iff.1 hfind)]
      by_cases heq : x = e.name
      · subst heq
        simp [size, names]
      · simp [heq, Ne.symm heq]

/-- **A declaration** keeps the scope in step with its journal. -/
theorem declare (h : s.Records es) (e : Entry) :
    (s.declare e.name e.kind e.value).2.Records (es ++ [e]) := by
  by_cases he : e.name ∈ s.names
  · obtain ⟨old, hold⟩ := Option.ne_none_iff_exists'.1 fun hnone => get?_eq_none_iff.1 hnone he
    rw [declare_of_get? hold]
    exact h.note_old he
  · rw [declare_of_notMem he]
    exact h.note_new he

end Scope.Records

namespace Environment

/-- **The environment does what its journal says.** -/
structure Refines (env : Environment) (j : Journal) : Prop where
  /-- Every scope holds the first declarations made in it. -/
  scopes : List.Forall₂ Scope.Records env.frames j.frames
  /-- A name new to the innermost scope gets the next slot there; all else stays. -/
  fresh : ∀ name kind value, env.current.get? name = none →
    (env.define name kind value).1 = .fresh ⟨kind, value, env.current.size⟩ ∧
    (env.define name kind value).2.frames =
      ⟨env.current.symbols ++ [(name, ⟨kind, value, env.current.size⟩)]⟩ :: env.frames.tail
  /-- A name that the innermost scope has keeps its first symbol; nothing changes. -/
  existing : ∀ name kind value old, env.current.get? name = some old →
    env.define name kind value = (.existing old, env)
  /-- The last scope is the base scope. It has the channels in its slots 0 and 1. -/
  base : env.frames.getLast? = some env.base ∧
    env.base.get? readChannel = some ⟨.var, none, 0⟩ ∧
    env.base.get? writeChannel = some ⟨.var, none, 1⟩
  /-- The base scope is not left; any other scope can be. -/
  exits : env.exit? = none ∧ env.frames = [env.base] ∨
    ∃ env', env.exit? = some (env.current, env') ∧ env.frames = env.current :: env'.frames
  /-- A name leads to the innermost scope that has it, as many scopes outward as are above. -/
  resolve : ∀ name a, env.resolve name = some a ↔
    ∃ s, env.frames[a.level]? = some s ∧ s.get? name = some a.symbol ∧
      ∀ k < a.level, ∀ t, env.frames[k]? = some t → t.get? name = none
  /-- It leads nowhere if no scope has it. -/
  unresolved : ∀ name, env.resolve name = none ↔ ∀ s ∈ env.frames, s.get? name = none

theorem resolveIn_eq_none_iff {name : String} {n : Nat} {ss : List Scope} :
    resolveIn name n ss = none ↔ ∀ s ∈ ss, s.get? name = none := by
  induction ss generalizing n with
  | nil => simp [resolveIn]
  | cons s ss ih =>
    unfold resolveIn
    cases hs : s.get? name with
    | some sym => simp [hs]
    | none => simp [hs, ih]

theorem frames_withCurrent (env : Environment) (s : Scope) :
    (env.withCurrent s).frames = s :: env.frames.tail := by
  obtain ⟨scopes, base⟩ := env
  cases scopes <;> rfl

/-- What only the shape of an environment is needed for. -/
theorem refines_of {env : Environment} {j : Journal}
    (hscopes : List.Forall₂ Scope.Records env.frames j.frames)
    (hbase : env.base.Extends Scope.channels) : env.Refines j where
  scopes := hscopes
  fresh := by
    intro name kind value hnone
    rw [define_eq, Scope.declare_of_notMem (Scope.get?_eq_none_iff.1 hnone), frames_withCurrent]
    exact ⟨rfl, rfl⟩
  existing := by
    intro name kind value old hold
    rw [define_eq, Scope.declare_of_get? hold, withCurrent_current]
  base := ⟨by simp [frames], hbase.get? channels_readChannel, hbase.get? channels_writeChannel⟩
  exits := by
    obtain ⟨scopes, base⟩ := env
    cases scopes with
    | nil => exact Or.inl ⟨rfl, rfl⟩
    | cons s ss => exact Or.inr ⟨_, rfl, rfl⟩
  resolve := fun name a => resolve_eq_some_iff
  unresolved := fun name => resolveIn_eq_none_iff

/-! ## Every sequence of calls -/

/-- The scopes hold what their journals say, and the base scope still has the channels. -/
structure InStep (env : Environment) (j : Journal) : Prop where
  scopes : List.Forall₂ Scope.Records env.scopes j.scopes
  base : env.base.Records j.base
  channels : env.base.Extends Scope.channels

theorem inStep_initial : initial.InStep Journal.initial where
  scopes := .nil
  base := (Scope.Records.nil.declare ⟨readChannel, .var, none⟩).declare ⟨writeChannel, .var, none⟩
  channels := Scope.Extends.refl _

/-- **One call** keeps the environment in step with its journal. -/
theorem InStep.apply {env : Environment} {j : Journal} (h : env.InStep j) (op : Op) :
    (op.apply env).InStep (j.note op) := by
  obtain ⟨scopes, base⟩ := env
  obtain ⟨ess, bs⟩ := j
  obtain ⟨hscopes, hbase, hchannels⟩ := h
  cases op with
  | enter => exact ⟨.cons .nil hscopes, hbase, hchannels⟩
  | exit =>
    cases hscopes with
    | nil => exact ⟨.nil, hbase, hchannels⟩
    | cons _ hrest => exact ⟨hrest, hbase, hchannels⟩
  | define e =>
    cases hscopes with
    | nil =>
      refine ⟨.nil, hbase.declare e, ?_⟩
      exact (Scope.extends_declare _ _ _ _).trans hchannels
    | cons hs hrest => exact ⟨.cons (hs.declare e) hrest, hbase, hchannels⟩
  | resolve name => exact ⟨hscopes, hbase, hchannels⟩

theorem InStep.after {env : Environment} {j : Journal} (h : env.InStep j) (ops : List Op) :
    (env.after ops).InStep (j.after ops) := by
  induction ops generalizing env j with
  | nil => exact h
  | cons op ops ih => exact ih (h.apply op)

/-! ## Calls that close what they open -/

/-- The calls never close more scopes than they opened, and in the end they have closed them all. -/
structure Balanced (ops : List Op) : Prop where
  never : ∀ ops', ops' <+: ops → ops'.count .exit ≤ ops'.count .enter
  all : ops.count .exit = ops.count .enter

instance (ops : List Op) : Decidable (Balanced ops) :=
  decidable_of_iff ((∀ ops' ∈ ops.inits, ops'.count .exit ≤ ops'.count .enter) ∧
      ops.count .exit = ops.count .enter)
    ⟨fun ⟨h, h'⟩ => ⟨fun _ hpre => h _ ((List.mem_inits _ _).2 hpre), h'⟩,
      fun ⟨h, h'⟩ => ⟨fun _ hmem => h _ ((List.mem_inits _ _).1 hmem), h'⟩⟩

/-- Calls that never close more than they opened work above the scope that was innermost. -/
theorem after_enter (env : Environment) {ops : List Op}
    (h : ∀ ops', ops' <+: ops → ops'.count .exit ≤ ops'.count .enter) :
    ∃ above : List Scope, env.enter.after ops = ⟨above ++ env.scopes, env.base⟩ ∧
      above.length + ops.count .exit = ops.count .enter + 1 := by
  induction ops using List.reverseRecOn with
  | nil => exact ⟨[Scope.empty], rfl, rfl⟩
  | append_singleton ops op ih =>
    obtain ⟨above, hafter, hlength⟩ :=
      ih fun ops' hpre => h ops' (hpre.trans (List.prefix_append _ _))
    have hcount := h (ops ++ [op]) (List.prefix_refl _)
    rw [after_concat, hafter]
    rw [List.count_append, List.count_append] at hcount ⊢
    -- As `op` closes no more than is open, there is a scope above for it to work on.
    cases op with
    | enter =>
      refine ⟨Scope.empty :: above, rfl, ?_⟩
      simp
      omega
    | exit =>
      cases above with
      | nil =>
        simp at hlength hcount
        omega
      | cons s above =>
        refine ⟨above, rfl, ?_⟩
        simp at hlength ⊢
        omega
    | define e =>
      cases above with
      | nil =>
        simp at hlength hcount
        omega
      | cons s above =>
        refine ⟨(s.declare e.name e.kind e.value).2 :: above, rfl, ?_⟩
        simpa using hlength
    | resolve name => exact ⟨above, rfl, by simpa using hlength⟩

theorem Balanced.after_exit {ops : List Op} (h : Balanced ops) (env : Environment) :
    env.after (.enter :: ops ++ [.exit]) = env := by
  obtain ⟨above, hafter, hlength⟩ := after_enter env h.never
  rw [after_concat]
  show Op.exit.apply (env.enter.after ops) = env
  rw [hafter]
  rw [h.all] at hlength
  have hone : above.length = 1 := by omega
  obtain ⟨s, rfl⟩ := List.length_eq_one_iff.1 hone
  rfl

/-- **An environment is a stack of scopes in the order of their declarations.** After any sequence
    of calls it does what the journal of these calls says. Wherever calls open a scope, never close
    more than they opened and end by closing this scope, every name leads afterwards where it led
    before. -/
theorem refines_journal (ops : List Op) {mid : List Op} (hmid : Balanced mid) (env : Environment) :
    (initial.after ops).Refines (Journal.initial.after ops) ∧
      ∀ name, (env.after (.enter :: mid ++ [.exit])).resolve name = env.resolve name := by
  obtain ⟨hscopes, hbase, hchannels⟩ := inStep_initial.after ops
  refine ⟨refines_of ?_ hchannels, fun name => ?_⟩
  · exact List.rel_append hscopes (.cons hbase .nil)
  · rw [hmid.after_exit]

/-- An `x` that is declared twice, with another one in a scope of its own. -/
def shadows : List Op :=
  [.define ⟨"x", .const, some 3⟩, .enter, .define ⟨"x", .var, none⟩, .exit,
    .define ⟨"x", .procedure, none⟩]

/-- Inside, `x` is the constant. Outside, it is the second name of its scope again. -/
theorem shadows_forgotten :
    let outside : List Op := [.enter, .define ⟨"y", .var, none⟩, .define ⟨"x", .var, none⟩]
    let env := initial.after outside
    Balanced shadows ∧ env.Refines (Journal.initial.after outside) ∧
      (env.after (.enter :: shadows)).resolve "x" = some ⟨0, ⟨.const, some 3, 0⟩⟩ ∧
      (env.after (.enter :: shadows ++ [.exit])).resolve "x" = some ⟨0, ⟨.var, none, 1⟩⟩ := by
  intro outside env
  have hbal : Balanced shadows := by decide
  have h := refines_journal outside hbal env
  exact ⟨hbal, h.1, by decide, (h.2 "x").trans (by decide)⟩

end Environment

end PL0
