import PL0.Proofs.Codegen.Names

/-!
# `Codegen.WellScoped` — exactly the well-scoped programs have code

`Program.mentions` lists the uses of names in a program in the order in which the walk meets them,
each with the names visible where it stands: those of the block, whole for its statement and up to
the procedure itself for a procedure, then those around the block, and the channels. The list is
read off the tree alone, without any scope being opened or closed.

`Foretold` says that such a list foretells an answer: the first use of a name that is not visible is
the error, and without one there is an answer. Answers foretold can be put one behind the other
(`Foretold.bind`), and every part of the code is foretold in scopes that show the names visible there
(`Environment.Shows`). What an offset cannot hold is excluded by the size of the program, which
leaves no other way to fail.
-/

namespace PL0

/-! ## Uses of names

What is visible is a list of names, without slots and without levels. It grows as the walk goes
inward and onward, and no use depends on what is declared behind it. -/

/-- A name where it is used, and the names visible there. -/
structure Mention where
  visible : List String
  ident : Ident
deriving DecidableEq

namespace Mention

/-- The name is one of those visible. -/
def Bound (m : Mention) : Prop := m.ident.name ∈ m.visible

instance : DecidablePred Bound := fun m => inferInstanceAs (Decidable (m.ident.name ∈ m.visible))

/-- The first of the names that is not visible. -/
def firstUnbound? (ms : List Mention) : Option Mention := ms.find? fun m => ¬ m.Bound

/-- None is missing if all are visible. -/
theorem firstUnbound?_eq_none_iff {ms : List Mention} :
    firstUnbound? ms = none ↔ ∀ m ∈ ms, m.Bound := by
  simp [firstUnbound?]

/-- The one that is found is missing. -/
theorem firstUnbound?_eq_some {ms : List Mention} {m : Mention} (h : firstUnbound? ms = some m) :
    m ∈ ms ∧ ¬ m.Bound := by
  unfold firstUnbound? at h
  exact ⟨List.mem_of_find?_eq_some h, by simpa using List.find?_some h⟩

end Mention

mutual

/-- The uses of names in a block that stands where the names `outer` are visible: those of its
    procedures in order, then those of its statement. -/
def Block.mentions (outer : List String) : Block → List Mention
  | .mk consts vars ps body =>
    Procedure.mentionsOf (consts.map (·.name.name) ++ vars.map (·.name) ++ outer) ps ++
      body.idents.map (Mention.mk ((Block.mk consts vars ps body).names ++ outer))

/-- A procedure sees what was visible before it, and itself. -/
def Procedure.mentions (before : List String) : Procedure → List Mention
  | .mk x b => b.mentions (x.name :: before)

/-- The next procedure sees this one as well. -/
def Procedure.mentionsOf (before : List String) : List Procedure → List Mention
  | [] => []
  | p :: ps => p.mentions before ++ Procedure.mentionsOf (p.name.name :: before) ps

end

/-- The uses of names in a program; around it only the channels are visible. -/
def Program.mentions (p : Program) : List Mention := p.block.mentions [readChannel, writeChannel]

mutual

/-- The greatest number of slots that the block or a block in it needs, one for each distinct name
    declared. -/
def Block.slots : Block → Nat
  | .mk consts vars ps body =>
    max (Block.mk consts vars ps body).names.dedup.length (Procedure.slotsOf ps)

/-- A procedure needs what its block needs. -/
def Procedure.slots : Procedure → Nat
  | .mk _ b => b.slots

/-- The greatest number that one of the procedures needs. -/
def Procedure.slotsOf : List Procedure → Nat
  | [] => 0
  | p :: ps => max p.slots (Procedure.slotsOf ps)

end

/-! ## Answers foretold by uses

The walk stops at the first error. So the uses of two parts, one list behind the other, foretell the
answer of the parts one behind the other; this is all that the induction along the tree needs. -/

open Codegen Mention

/-- The answer is the first use of a name that is not visible, or it is no error. -/
def Foretold {α : Type} (ms : List Mention) (r : Except CodegenError α) : Prop :=
  match firstUnbound? ms with
  | none => ∃ a, r = .ok a
  | some m => r = .error (.undeclared m.ident)

namespace Foretold

variable {α β : Type} {ms ns : List Mention} {x : Except CodegenError α}

/-- An answer that uses no name. -/
theorem pure (a : α) : Foretold [] (pure a : Except CodegenError α) := ⟨a, rfl⟩

/-- **One part behind the other.** -/
theorem bind {f : α → Except CodegenError β} (hx : Foretold ms x)
    (hf : ∀ a, x = .ok a → Foretold ns (f a)) : Foretold (ms ++ ns) (x >>= f) := by
  unfold Foretold firstUnbound? at *
  rw [List.find?_append]
  cases hm : ms.find? fun m => ¬ m.Bound with
  | some m =>
    rw [hm] at hx
    dsimp only at hx
    subst hx
    rfl
  | none =>
    rw [hm] at hx
    obtain ⟨a, rfl⟩ := hx
    exact hf a rfl

/-- A part that uses no name. -/
theorem bind_nil {f : α → Except CodegenError β} (hx : Foretold [] x)
    (hf : ∀ a, x = .ok a → Foretold ns (f a)) : Foretold ns (x >>= f) := hx.bind hf

/-- What follows uses no name. -/
theorem bind_last {f : α → Except CodegenError β} (hx : Foretold ms x)
    (hf : ∀ a, x = .ok a → Foretold [] (f a)) : Foretold ms (x >>= f) := by
  have h := hx.bind hf
  rwa [List.append_nil] at h

/-- What is made of an answer uses no further name. -/
theorem map {f : α → β} (hx : Foretold ms x) : Foretold ms (f <$> x) :=
  hx.bind_last fun a _ => .pure (f a)

/-- Parts in turn, each with its own uses. -/
theorem collect {γ : Type} {f : γ → Except CodegenError (List Instruction)}
    {g : γ → List Mention} (hf : ∀ x, Foretold (g x) (f x)) (xs : List γ) :
    Foretold (xs.flatMap g) (collect f xs) := by
  induction xs with
  | nil => exact .pure []
  | cons x xs ih =>
    refine (hf x).bind fun is _ => ?_
    exact ih.bind_last fun js _ => .pure _

/-- A use that is not visible is the error. -/
theorem eq_error {m : Mention} (h : Foretold ms x) (hm : firstUnbound? ms = some m) :
    x = .error (.undeclared m.ident) := by
  unfold Foretold at h
  rwa [hm] at h

/-- There is no other error. -/
theorem of_eq_error {e : CodegenError} (h : Foretold ms x) (he : x = .error e) :
    ∃ m, firstUnbound? ms = some m ∧ e = .undeclared m.ident := by
  cases hm : firstUnbound? ms with
  | some m =>
    rw [h.eq_error hm] at he
    cases he
    exact ⟨m, rfl, rfl⟩
  | none =>
    unfold Foretold at h
    rw [hm] at h
    obtain ⟨a, rfl⟩ := h
    cases he

/-- There is an answer if all uses are visible, and only then. -/
theorem exists_ok_iff (h : Foretold ms x) : (∃ a, x = .ok a) ↔ ∀ m ∈ ms, m.Bound := by
  cases hm : firstUnbound? ms with
  | some m =>
    obtain ⟨hmem, hnot⟩ := firstUnbound?_eq_some hm
    rw [h.eq_error hm]
    constructor
    · rintro ⟨a, ⟨⟩⟩
    · exact fun hall => absurd (hall m hmem) hnot
  | none =>
    unfold Foretold at h
    rw [hm] at h
    exact ⟨fun _ => firstUnbound?_eq_none_iff.1 hm, fun _ => h⟩

end Foretold

/-- A number that is a word can be an offset. -/
theorem foretold_offset {n : Nat} (h : (n : Int) ≤ Word.greatest) : Foretold [] (offset n) := by
  have hr : Word.InRange n := by
    refine ⟨?_, h⟩
    unfold Word.least
    omega
  exact ⟨n, offset_eq_ok_iff.2 ⟨rfl, hr⟩⟩

/-! ## Scopes

An environment and a list of visible names say the same about which names resolve. Where they lead,
to which level and slot, is no matter here, except that the slot is small enough to be an offset. -/

namespace Environment

/-- To start counting at `n` is to add `n` to the level. -/
theorem resolveIn_eq_map (name : String) (n : Nat) (ss : List Scope) :
    resolveIn name n ss = (resolveIn name 0 ss).map fun a => ⟨a.level + n, a.symbol⟩ := by
  induction ss generalizing n with
  | nil => rfl
  | cons s ss ih =>
    unfold resolveIn
    cases s.get? name with
    | some sym => simp
    | none =>
      dsimp only
      rw [ih (n + 1), ih (0 + 1), Option.map_map]
      congr 1
      funext a
      simp [Nat.add_assoc, Nat.add_comm 1]

/-- A name leads to the scope just opened if that has it, and outward if not. -/
theorem resolve_nest (env : Environment) (s : Scope) (name : String) :
    (env.nest s).resolve name =
      match s.get? name with
      | some sym => some ⟨0, sym⟩
      | none => (env.resolve name).map fun a => ⟨a.level + 1, a.symbol⟩ := by
  show resolveIn name 0 (s :: env.frames) = _
  unfold resolveIn
  cases s.get? name with
  | some sym => rfl
  | none => exact resolveIn_eq_map name 1 env.frames

/-- **In these scopes exactly the names of the list are visible.** The channels are among them, and
    all slots can be offsets. -/
structure Shows (env : Environment) (visible : List String) : Prop where
  unbound : ∀ name, env.resolve name = none ↔ name ∉ visible
  slot_le : ∀ name a, env.resolve name = some a → (a.symbol.slot : Int) ≤ Word.greatest
  channels : readChannel ∈ visible ∧ writeChannel ∈ visible

/-- Outside the program there are the channels and nothing else. -/
theorem shows_initial : initial.Shows [readChannel, writeChannel] := by
  have hresolve (name : String) :
      initial.resolve name = (Scope.channels.get? name).map fun sym => ⟨0, sym⟩ := by
    show resolveIn name 0 [Scope.channels] = _
    unfold resolveIn
    cases Scope.channels.get? name <;> rfl
  constructor
  · intro name
    rw [hresolve, Option.map_eq_none_iff, Scope.get?_eq_none_iff]
    rfl
  · intro name a ha
    rw [hresolve] at ha
    obtain ⟨sym, hsym, rfl⟩ := Option.map_eq_some_iff.1 ha
    rcases channels_get?_eq_some_iff.1 hsym with ⟨-, rfl⟩ | ⟨-, rfl⟩ <;> decide
  · decide

/-- In a further scope its own names are visible as well. -/
theorem Shows.nest {env : Environment} {s : Scope} {outer visible : List String}
    (h : env.Shows outer) (hs : s.Sound) (hsize : (s.size : Int) ≤ Word.greatest)
    (hvisible : ∀ name, name ∈ visible ↔ name ∈ s.names ∨ name ∈ outer) :
    (env.nest s).Shows visible := by
  constructor
  · intro name
    rw [resolve_nest, hvisible]
    cases hget : s.get? name with
    | some sym =>
      simp [Scope.mem_names_of_get? hget]
    | none =>
      have hnot := Scope.get?_eq_none_iff.1 hget
      simp [hnot, h.unbound]
  · intro name a ha
    rw [resolve_nest] at ha
    cases hget : s.get? name with
    | some sym =>
      rw [hget] at ha
      cases ha
      have hlt := hs.slot_lt hget
      dsimp only
      omega
    | none =>
      rw [hget] at ha
      obtain ⟨b, hb, rfl⟩ := Option.map_eq_some_iff.1 ha
      exact h.slot_le name b hb
  · exact ⟨(hvisible _).2 (.inr h.channels.1), (hvisible _).2 (.inr h.channels.2)⟩

variable {env : Environment} {visible : List String}

/-- To locate a name is to use it. -/
theorem Shows.locate (h : env.Shows visible) (x : Ident) :
    Foretold [⟨visible, x⟩] (env.locate x) := by
  unfold Foretold firstUnbound? Environment.locate
  have hunbound := h.unbound x.name
  cases hr : env.resolve x.name with
  | some a =>
    have hmem : x.name ∈ visible := by
      by_contra hnot
      rw [hunbound.2 hnot] at hr
      cases hr
    simp [Bound, hmem]
  | none =>
    have hmem := hunbound.1 hr
    simp [Bound, hmem]

/-- Every name leads to a slot that can be accessed. -/
theorem Shows.access (h : env.Shows visible) {name : String} {a : Address}
    (ha : env.resolve name = some a) (op : OpCode) : Foretold [] (accessCode op a) :=
  (foretold_offset (h.slot_le name a ha)).bind_nil fun _ _ => .pure _

/-- The channels are never missing. -/
theorem Shows.exists_channel (h : env.Shows visible) {name : String} (hname : name ∈ visible) :
    ∃ a, env.channel name = .ok a ∧ env.resolve name = some a := by
  cases hr : env.resolve name with
  | some a => exact ⟨a, channel_eq_ok_iff.2 hr, rfl⟩
  | none => exact absurd hname ((h.unbound name).1 hr)

/-- The access to a name of the program. -/
theorem Shows.locate_access (h : env.Shows visible) (op : OpCode) (x : Ident) :
    Foretold [⟨visible, x⟩] (do accessCode op (← env.locate x)) :=
  (h.locate x).bind_last fun _ ha => h.access (locate_eq_ok_iff.1 ha) op

end Environment

/-! ## Expressions and statements

Case by case in the order of the walk. The uses of a part are its identifiers from left to right,
all of them seen from the same place. -/

section
variable {env : Environment} {visible : List String}

mutual

/-- An expression is foretold by its identifiers. -/
theorem Expr.foretold_code (e : Expr) (h : env.Shows visible) :
    Foretold (e.idents.map (Mention.mk visible)) (e.code env) := by
  obtain ⟨sign, ts⟩ := e
  exact Terms.foretold_code ts h

/-- The left operand is walked first. -/
theorem Terms.foretold_code (ts : Terms) (h : env.Shows visible) :
    Foretold (ts.idents.map (Mention.mk visible)) (ts.code env) := by
  cases ts with
  | single t => exact Term.foretold_code t h
  | join left op right =>
    rw [Terms.idents, List.map_append]
    refine (Terms.foretold_code left h).bind fun ls _ => ?_
    exact (Term.foretold_code right h).bind_last fun rs _ => .pure _

/-- Likewise for products. -/
theorem Term.foretold_code (t : Term) (h : env.Shows visible) :
    Foretold (t.idents.map (Mention.mk visible)) (t.code env) := by
  cases t with
  | single f => exact Factor.foretold_code f h
  | join left op right =>
    rw [Term.idents, List.map_append]
    refine (Term.foretold_code left h).bind fun ls _ => ?_
    exact (Factor.foretold_code right h).bind_last fun rs _ => .pure _

/-- An identifier is located and its slot accessed. -/
theorem Factor.foretold_code (f : Factor) (h : env.Shows visible) :
    Foretold (f.idents.map (Mention.mk visible)) (f.code env) := by
  cases f with
  | ident x => exact h.locate_access .lod x
  | number n => exact .pure _
  | group e => exact Expr.foretold_code e h

end

/-- The operands of a condition in their order. -/
theorem Condition.foretold_code (c : Condition) (h : env.Shows visible) :
    Foretold (c.idents.map (Mention.mk visible)) (c.code env) := by
  cases c with
  | odd e => exact (e.foretold_code h).bind_last fun _ _ => .pure _
  | compare left r right =>
    rw [Condition.idents, List.map_append]
    refine (left.foretold_code h).bind fun ls _ => ?_
    exact (right.foretold_code h).bind_last fun rs _ => .pure _

/-- The target is located before the channel is accessed, which cannot fail. -/
theorem foretold_readCode (h : env.Shows visible) {input : Address}
    (hinput : env.resolve readChannel = some input) (x : Ident) :
    Foretold [⟨visible, x⟩] (readCode env input x) := by
  refine (h.locate x).bind_last fun target ht => ?_
  refine (h.access hinput .lod).bind_nil fun ls _ => ?_
  exact (h.access (locate_eq_ok_iff.1 ht) .sto).bind_nil fun ss _ => .pure _

/-- The channel is accessed behind the expression. -/
theorem foretold_writeCode (h : env.Shows visible) {output : Address}
    (houtput : env.resolve writeChannel = some output) (e : Expr) :
    Foretold (e.idents.map (Mention.mk visible)) (writeCode env output e) := by
  refine (e.foretold_code h).bind_last fun is _ => ?_
  exact (h.access houtput .sto).bind_nil fun ss _ => .pure _

mutual

/-- The targets of jumps lie in the statement or right behind it. -/
theorem Statement.foretold_code (s : Statement) (h : env.Shows visible) {a : Nat}
    (ha : ((a + s.codeSize : Nat) : Int) ≤ Word.greatest) :
    Foretold (s.idents.map (Mention.mk visible)) (s.code env a) := by
  cases s with
  | empty => exact .pure []
  | block body => exact Statement.foretold_codes body h ha
  | read targets =>
    obtain ⟨input, hchannel, hinput⟩ := h.exists_channel h.channels.1
    rw [Statement.code, hchannel, Statement.idents, List.map_eq_flatMap]
    exact .collect (foretold_readCode h hinput) targets
  | write values =>
    obtain ⟨output, hchannel, houtput⟩ := h.exists_channel h.channels.2
    rw [Statement.code, hchannel, Statement.idents, List.map_flatMap]
    exact .collect (foretold_writeCode h houtput) values
  | call x => exact h.locate_access .cal x
  | whileDo c body =>
    rw [Statement.codeSize] at ha
    rw [Statement.idents, List.map_append]
    refine (c.foretold_code h).bind fun test htest => ?_
    have htest := Condition.length_code htest
    refine (Statement.foretold_code body h (by omega)).bind_last fun is his => ?_
    have his := Statement.length_code his
    refine (foretold_offset (by omega)).bind_nil fun top _ => ?_
    exact (foretold_offset (by omega)).bind_nil fun exit _ => .pure _
  | assign x e =>
    rw [Statement.idents, List.map_append]
    refine (e.foretold_code h).bind fun is _ => ?_
    -- The right side is walked before the target of the assignment is located.
    refine (h.locate x).bind_last fun target ht => ?_
    exact (h.access (locate_eq_ok_iff.1 ht) .sto).bind_nil fun ss _ => .pure _
  | ifThen c body =>
    rw [Statement.codeSize] at ha
    rw [Statement.idents, List.map_append]
    refine (c.foretold_code h).bind fun test htest => ?_
    have htest := Condition.length_code htest
    refine (Statement.foretold_code body h (by omega)).bind_last fun is his => ?_
    have his := Statement.length_code his
    exact (foretold_offset (by omega)).bind_nil fun skip _ => .pure _

/-- Statements that follow each other, each at the address behind the one before. -/
theorem Statement.foretold_codes (ss : List Statement) (h : env.Shows visible) {a : Nat}
    (ha : ((a + Statement.codeSizes ss : Nat) : Int) ≤ Word.greatest) :
    Foretold ((Statement.identsOf ss).map (Mention.mk visible)) (Statement.codes env a ss) := by
  cases ss with
  | nil => exact .pure []
  | cons s ss =>
    rw [Statement.codeSizes] at ha
    rw [Statement.identsOf, List.map_append]
    refine (Statement.foretold_code s h (by omega)).bind fun is his => ?_
    have his := Statement.length_code his
    refine (Statement.foretold_codes ss h (by omega)).bind_last fun js _ => .pure _

end

end

/-! ## Blocks

The scope of a block grows while its procedures are walked. Every scope met on the way is extended
by the whole one, so its slots are in range if those of the whole one are. -/

namespace Scope

/-- A scope that extends another is no smaller. -/
theorem Extends.size_le {s t : Scope} (h : t.Extends s) : s.size ≤ t.size := h.length_le

/-- A declaration answers a slot that the scope then has. -/
theorem declare_slot_lt {s : Scope} (hs : s.Sound) (x : String) (kind : SymbolKind)
    (value : Option Int) :
    (s.declare x kind value).1.symbol.slot < (s.declare x kind value).2.size :=
  (hs.declare x kind value).slot_lt (get?_declare s x kind value)

end Scope

/-- Constants use no name and take slots of the block. -/
theorem foretold_constsCode (ds : List ConstDecl) {s : Scope} (hs : s.Sound)
    (hsize : ((ds.foldl Scope.declareConst s).size : Int) ≤ Word.greatest) :
    Foretold [] (constsCode s ds) := by
  induction ds generalizing s with
  | nil => exact .pure []
  | cons d ds ih =>
    have hlt := Scope.declare_slot_lt hs d.name.name .const (some d.value.value)
    have hle := (Scope.extends_consts ds (s.declareConst d)).size_le
    rw [List.foldl_cons] at hsize
    have hslot : Foretold [] (constCode s d) := by
      refine (foretold_offset ?_).bind_nil fun slot _ => .pure _
      unfold Scope.declareConst at hle hsize
      omega
    refine hslot.bind_nil fun is _ => ?_
    exact (ih (hs.declare ..) hsize).bind_nil fun js _ => .pure _

mutual

/-- The code of a block is foretold by its uses, in scopes that show what is visible around it. -/
theorem Block.foretold_code (b : Block) {env : Environment} {outer : List String}
    (h : env.Shows outer) {a : Nat} (ha : ((a + b.codeSize : Nat) : Int) ≤ Word.greatest)
    (hslots : (b.slots : Int) ≤ Word.greatest) : Foretold (b.mentions outer) (b.code env a) := by
  obtain ⟨consts, vars, ps, body⟩ := b
  rw [Block.codeSize] at ha
  rw [Block.slots, ← Block.size_scope] at hslots
  have hextends : (Block.mk consts vars ps body).dataScope.size ≤
      (Block.mk consts vars ps body).scope.size := (Block.extends_dataScope _).size_le
  have hconsts : (consts.foldl Scope.declareConst Scope.empty).size ≤
      (Block.mk consts vars ps body).dataScope.size := (Scope.extends_vars vars _).size_le
  have hdata : (Block.mk consts vars ps body).dataScope.Sound := Block.sound_dataScope _
  have hscope : (Block.mk consts vars ps body).scope.Sound := Block.sound_scope _
  -- Procedures see the data of the block and those before them, the statement sees all names.
  have hbefore (name : String) : name ∈ consts.map (·.name.name) ++ vars.map (·.name) ++ outer ↔
      name ∈ (Block.mk consts vars ps body).dataScope.names ∨ name ∈ outer := by
    rw [Block.mem_names_dataScope, List.mem_append]
    rfl
  have hall (name : String) : name ∈ (Block.mk consts vars ps body).names ++ outer ↔
      name ∈ (Block.mk consts vars ps body).scope.names ∨ name ∈ outer := by
    rw [Block.mem_names_scope, List.mem_append]
  refine (foretold_constsCode consts Scope.sound_empty ?_).bind_nil fun cs hcs => ?_
  · omega
  have hcs := length_constsCode hcs
  refine (Procedure.foretold_codes ps h hdata ?_ hbefore ?_ ?_).bind fun is his => ?_
  · show ((Block.mk consts vars ps body).scope.size : Int) ≤ _
    omega
  · omega
  · omega
  have his := Procedure.length_codes his
  refine (Statement.foretold_code body (h.nest hscope ?_ hall) ?_).bind_last fun js _ => ?_
  · omega
  · omega
  exact (foretold_offset (by omega)).bind_nil fun slots _ => .pure _

/-- A procedure, declared in the scope of what stands before it. -/
theorem Procedure.foretold_code (p : Procedure) {env : Environment} {s : Scope}
    {outer before : List String} (h : env.Shows outer) (hs : s.Sound)
    (hsize : ((s.declareProcedure p).size : Int) ≤ Word.greatest)
    (hbefore : ∀ name, name ∈ before ↔ name ∈ s.names ∨ name ∈ outer) {a : Nat}
    (ha : ((a + p.codeSize : Nat) : Int) ≤ Word.greatest)
    (hslots : (p.slots : Int) ≤ Word.greatest) :
    Foretold (p.mentions before) (p.code env s a) := by
  obtain ⟨x, b⟩ := p
  rw [Procedure.codeSize] at ha
  have hlt := Scope.declare_slot_lt hs x.name .procedure none
  -- The procedure is declared before its block is walked, so it sees itself.
  have hself : (env.nest (s.declareProcedure (.mk x b))).Shows (x.name :: before) := by
    refine h.nest (hs.declare ..) hsize fun name => ?_
    unfold Scope.declareProcedure
    rw [Scope.mem_names_declare, List.mem_cons, hbefore]
    simp only [Procedure.name]
    tauto
  refine (foretold_offset ?_).bind_nil fun slot _ => ?_
  · unfold Scope.declareProcedure at hsize
    simp only [Procedure.name] at hsize
    omega
  refine (foretold_offset (by omega)).bind_nil fun entry _ => ?_
  refine (Block.foretold_code b hself (by omega) hslots).bind_last fun is his => ?_
  have his := Block.length_code his
  exact (foretold_offset (by omega)).bind_nil fun skip _ => .pure _

/-- Procedures in turn, each of which sees those before it. -/
theorem Procedure.foretold_codes (ps : List Procedure) {env : Environment} {s : Scope}
    {outer before : List String} (h : env.Shows outer) (hs : s.Sound)
    (hsize : ((ps.foldl Scope.declareProcedure s).size : Int) ≤ Word.greatest)
    (hbefore : ∀ name, name ∈ before ↔ name ∈ s.names ∨ name ∈ outer) {a : Nat}
    (ha : ((a + Procedure.codeSizes ps : Nat) : Int) ≤ Word.greatest)
    (hslots : (Procedure.slotsOf ps : Int) ≤ Word.greatest) :
    Foretold (Procedure.mentionsOf before ps) (Procedure.codes env s a ps) := by
  cases ps with
  | nil => exact .pure []
  | cons p ps =>
    rw [Procedure.codeSizes] at ha
    rw [Procedure.slotsOf] at hslots
    rw [List.foldl_cons] at hsize
    have hle := (Scope.extends_procedures ps (s.declareProcedure p)).size_le
    have hnext (name : String) : name ∈ p.name.name :: before ↔
        name ∈ (s.declareProcedure p).names ∨ name ∈ outer := by
      unfold Scope.declareProcedure
      rw [Scope.mem_names_declare, List.mem_cons, hbefore]
      tauto
    refine (Procedure.foretold_code p h hs (by omega) hbefore (by omega) (by omega)).bind
      fun is his => ?_
    have his := Procedure.length_code his
    exact (Procedure.foretold_codes ps h (hs.declare ..) hsize hnext (by omega) (by omega)).bind_last
      fun js _ => .pure _

end

namespace Program

/-- **Exactly the well-scoped programs have code, and the others are told their first violation.** A
    program whose code and whose slots can be numbered by words is compiled if each name is visible
    where it is used. If not, the error is the first use of a name that is not visible. There is no
    other error: no patch is refused, no channel is missing, and no offset is too great. -/
theorem compile_wellScoped (p : Program) (hcode : (p.block.codeSize : Int) ≤ Word.greatest)
    (hslots : (p.block.slots : Int) ≤ Word.greatest) :
    ((∃ code, p.compile.1 = .ok code) ↔ ∀ m ∈ p.mentions, m.Bound) ∧
    (∀ m, firstUnbound? p.mentions = some m → p.compile.1 = .error (.undeclared m.ident)) ∧
    (∀ e, p.compile.1 = .error e →
      ∃ m, firstUnbound? p.mentions = some m ∧ e = .undeclared m.ident) := by
  have hcode' : ((0 + p.block.codeSize : Nat) : Int) ≤ Word.greatest := by omega
  have h : Foretold p.mentions p.compile.1 := by
    rw [compile_eq]
    exact (p.block.foretold_code Environment.shows_initial hcode' hslots).map
  exact ⟨h.exists_ok_iff, fun m hm => h.eq_error hm, fun e he => h.of_eq_error he⟩

/-- The program `procedure p; call q; procedure q; ; call p .` -/
def forward : Program :=
  ⟨.mk [] [] [.mk ⟨"p", 10⟩ (.mk [] [] [] (.call ⟨"q", 18⟩)),
    .mk ⟨"q", 31⟩ (.mk [] [] [] .empty)] (.call ⟨"p", 41⟩)⟩

/-- In `countdown` every name is visible; in `forward` a procedure calls the one behind it. -/
theorem forward_undeclared :
    (countdown.block.codeSize : Int) ≤ Word.greatest ∧
    (countdown.block.slots : Int) ≤ Word.greatest ∧
    (forward.block.codeSize : Int) ≤ Word.greatest ∧
    (forward.block.slots : Int) ≤ Word.greatest ∧
    (∃ code, countdown.compile.1 = .ok code) ∧
    forward.compile.1 = .error (.undeclared ⟨"q", 18⟩) := by
  have hcountdown := compile_wellScoped countdown (by decide) (by decide)
  have hforward := compile_wellScoped forward (by decide) (by decide)
  refine ⟨by decide, by decide, by decide, by decide, hcountdown.1.2 (by decide), ?_⟩
  exact hforward.2.1 ⟨["p", readChannel, writeChannel], ⟨"q", 18⟩⟩ (by decide)

end Program

end PL0
