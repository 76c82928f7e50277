import PL0.Proofs.Codegen.Emission

/-!
# `Codegen.Walk` — the walk emits the code of the tree

The walk works on a buffer that it appends to and patches, and on a stack of scopes that it opens
and closes. `Walks c r v` says that a part of the walk that started from the buffer `c` has come to
the result `r`, and that this is what `v` foretells: the value answered, the instructions appended
since, and the scopes open now, or the error. `Walks.bind` composes such statements; one lemma for
each part of the walk then follows the equations of `Codegen.Emission`, and `compile_eq` closes the
development for whole programs.

What has been appended before a part starts is `is` throughout, and the part appends `js` to it. So
the address of the next instruction is known, `c.nextAddress + is.length`, and a jump that is patched
later is found again in the list: it stands between what was there and what has come since.

Main statements: `walks_statement`, `walks_block`, `compile_eq`.
-/

namespace PL0

/-! ## Appending to the buffer

A walk only ever appends, and patches what it appended itself. Stated with `append`, the laws of the
buffer are laws of lists. -/

namespace Code

/-- The buffer with instructions appended. -/
def append (c : Code) (is : List Instruction) : Code := ⟨c.instructions ++ is.toArray⟩

/-- The next address goes up by one with each instruction. -/
theorem nextAddress_append (c : Code) (is : List Instruction) :
    (c.append is).nextAddress = c.nextAddress + is.length := by
  simp [append, nextAddress]

/-- Appending in two goes is appending at once. -/
theorem append_append (c : Code) (is js : List Instruction) :
    (c.append is).append js = c.append (is ++ js) := by
  simp [append]

/-- An instruction is emitted at the next address, which is also the answer. -/
theorem emit_eq (c : Code) (i : Instruction) : c.emit i = (c.nextAddress, c.append [i]) := by
  simp [emit, append, nextAddress]

/-- **A patch inside what has been appended** overwrites the offset there and nothing else. -/
theorem patch_append (c : Code) (is js : List Instruction) (i : Instruction) (n : Nat) :
    (c.append (is ++ i :: js)).patch (c.nextAddress + is.length) .offset n =
      match offset? n with
      | some v => .ok (c.append (is ++ { i with offset := .number v } :: js))
      | none => .error .tooLarge := by
  have hget : (c.append (is ++ i :: js)).instructions[c.nextAddress + is.length]? = some i := by
    simp [append, nextAddress]
  have hset (j : Instruction) :
      (c.append (is ++ i :: js)).instructions.setIfInBounds (c.nextAddress + is.length) j =
        (c.append (is ++ j :: js)).instructions := by
    apply Array.ext'
    simp [append, nextAddress]
  unfold patch
  rw [hget]
  cases h : offset? n with
  | none => simp [patched, h]
  | some v => simp [patched, h, hset]

end Code


namespace Codegen

/-! ## Foretelling a part of the walk

Code and environment are foretold, warnings are not: no instruction depends on them. A part that
fails is foretold by its error alone, because nothing is walked behind it. -/

/-- The result `r` of a part of the walk that started from the buffer `c` is the foretold one: the
    value, the instructions appended to `c`, and the environment, or the error. -/
def Walks {α : Type} (c : Code) (r : EStateM.Result CodegenError State α)
    (expected : Except CodegenError (α × List Instruction × Environment)) : Prop :=
  match r, expected with
  | .ok v s, .ok (w, is, env) => v = w ∧ s.code = c.append is ∧ s.env = env
  | .error e _, .error e' => e = e'
  | _, _ => False

section
variable {α β γ : Type} {c : Code} {s : State} {is js : List Instruction} {env : Environment}

/-- **Parts compose.** If `x` comes to what `v` foretells, and the rest of the walk, started from
    there, to what `w` foretells, then both together come to `v` and then `w`. `G` says how the walk
    answers, what it has appended and which scopes are open, given the answer of `v`. -/
theorem Walks.bind {x : Gen α} {f : α → Gen β} {v : Except CodegenError γ}
    {G : γ → α × List Instruction × Environment}
    {w : γ → Except CodegenError (β × List Instruction × Environment)}
    (hx : Walks c (x s) (G <$> v))
    (hf : ∀ g s', v = .ok g → s'.code = c.append (G g).2.1 → s'.env = (G g).2.2 →
      Walks c (f (G g).1 s') (w g)) :
    Walks c ((x >>= f) s) (v >>= w) := by
  -- Success goes with success and failure with failure: `hx` excludes the mixed cases.
  show Walks c (EStateM.bind x f s) _
  unfold EStateM.bind
  cases hr : x s with
  | ok v' s' =>
    cases hv : v with
    | ok g =>
      rw [hr, hv] at hx
      obtain ⟨hv', hc, he⟩ := hx
      show Walks c (f v' s') (w g)
      rw [hv']
      exact hf g s' hv hc he
    | error e => rw [hr, hv] at hx; exact hx.elim
  | error e s' =>
    cases hv : v with
    | ok g => rw [hr, hv] at hx; exact hx.elim
    | error e' => rw [hr, hv] at hx; exact hx

/-- The same behind a part that cannot fail. -/
theorem Walks.andThen {x : Gen α} {f : α → Gen β} {v : α}
    {w : Except CodegenError (β × List Instruction × Environment)}
    (hx : Walks c (x s) (.ok (v, is, env)))
    (hf : ∀ s', s'.code = c.append is → s'.env = env → Walks c (f v s') w) :
    Walks c ((x >>= f) s) w :=
  Walks.bind (v := .ok ()) (G := fun _ => (v, is, env)) (w := fun _ => w) hx
    fun _ s' _ hc he => hf s' hc he

/-- Where the walk has succeeded, what it has come to was foretold. -/
theorem Walks.of_ok {r : EStateM.Result CodegenError State α} {v : Except CodegenError γ}
    {G : γ → α × List Instruction × Environment} {b : α} (h : Walks c r (G <$> v))
    (hr : r = .ok b s) :
    ∃ g, v = .ok g ∧ b = (G g).1 ∧ s.code = c.append (G g).2.1 ∧ s.env = (G g).2.2 := by
  rw [hr] at h
  cases hv : v with
  | error e => rw [hv] at h; exact h.elim
  | ok g => rw [hv] at h; exact ⟨g, rfl, h⟩

/-- Where success was foretold, the walk has succeeded. -/
theorem Walks.to_ok {r : EStateM.Result CodegenError State α} {v : Except CodegenError γ}
    {G : γ → α × List Instruction × Environment} {g : γ} (h : Walks c r (G <$> v))
    (hv : v = .ok g) :
    ∃ s', r = .ok (G g).1 s' ∧ s'.code = c.append (G g).2.1 ∧ s'.env = (G g).2.2 := by
  rw [hv] at h
  cases hr : r with
  | error e s' => rw [hr] at h; exact h.elim
  | ok b s' =>
    rw [hr] at h
    obtain ⟨rfl, hc, he⟩ := h
    exact ⟨s', rfl, hc, he⟩

/-- Where failure was foretold, the walk has failed. -/
theorem Walks.to_error {r : EStateM.Result CodegenError State α} {v : Except CodegenError γ}
    {G : γ → α × List Instruction × Environment} {e : CodegenError} (h : Walks c r (G <$> v))
    (hv : v = .error e) : ∃ s', r = .error e s' := by
  rw [hv] at h
  cases hr : r with
  | ok b s' => rw [hr] at h; exact h.elim
  | error e' s' =>
    rw [hr] at h
    obtain rfl : e' = e := h
    exact ⟨s', rfl⟩

/-- A foretelling may be replaced by an equal one. The proofs use this to reassociate lists at the
    end. -/
theorem Walks.congr {r : EStateM.Result CodegenError State α}
    {v w : Except CodegenError (α × List Instruction × Environment)} (h : Walks c r v)
    (hv : v = w) : Walks c r w := hv ▸ h

/-- A value that nothing uses need not be foretold. -/
theorem walks_discard {x : Gen α} {v : Except CodegenError γ}
    {G : γ → α × List Instruction × Environment} (hx : Walks c (x s) (G <$> v)) :
    Walks c (discard x s) ((fun g => ((), (G g).2)) <$> v) := by
  show Walks c (EStateM.map (fun _ => ()) x s) _
  unfold EStateM.map
  cases hr : x s with
  | ok v' s' =>
    cases hv : v with
    | ok g =>
      rw [hr, hv] at hx
      obtain ⟨-, hc, he⟩ := hx
      exact ⟨rfl, hc, he⟩
    | error e => rw [hr, hv] at hx; exact hx.elim
  | error e s' =>
    cases hv : v with
    | ok g => rw [hr, hv] at hx; exact hx.elim
    | error e' => rw [hr, hv] at hx; exact hx

/-! ## The actions of the walk

One lemma for each action that the walk is made of: what it appends, and what it does to the scopes.
All of them start where `is` has been appended already and `env` is open. -/

/-- The answer of `emit` is the address of the instruction, counted from the start of the walk. -/
theorem walks_emit (hc : s.code = c.append is) (he : s.env = env) (i : Instruction) :
    Walks c (emit i s) (.ok (c.nextAddress + is.length, is ++ [i], env)) := by
  refine ⟨?_, ?_, he⟩
  · show s.code.nextAddress = _
    rw [hc, Code.nextAddress_append]
  · show (s.code.emit i).2 = _
    rw [hc, Code.emit_eq, Code.append_append]

/-- An instruction whose address nobody needs. -/
theorem walks_push (hc : s.code = c.append is) (he : s.env = env) (i : Instruction) :
    Walks c (discard (emit i) s) (.ok ((), is ++ [i], env)) :=
  walks_discard (v := .ok ()) (G := fun _ => _) (walks_emit hc he i)

/-- An instruction whose offset has to be in range. If it is not, the walk fails before it emits. -/
theorem walks_emitAt (hc : s.code = c.append is) (he : s.env = env) (op : OpCode) (level n : Nat) :
    Walks c (emitAt op level n s)
      ((fun v => (c.nextAddress + is.length, is ++ [.make op level v], env)) <$> offset n) := by
  unfold emitAt offset
  cases Code.offset? n with
  | none => exact rfl
  | some v => exact walks_emit hc he _

/-- The address that the next instruction will have, for a jump back to it. -/
theorem walks_nextAddress {a : Nat} (hc : s.code = c.append is) (he : s.env = env)
    (ha : c.nextAddress + is.length = a) : Walks c (nextAddress s) (.ok (a, is, env)) :=
  ⟨by show s.code.nextAddress = a; rw [hc, Code.nextAddress_append, ha], hc, he⟩

theorem walks_get (hc : s.code = c.append is) (he : s.env = env) :
    Walks c ((get : Gen State) s) (.ok (s, is, env)) := ⟨rfl, hc, he⟩

theorem walks_enterScope (hc : s.code = c.append is) (he : s.env = env) :
    Walks c (enterScope s) (.ok ((), is, env.enter)) := ⟨rfl, hc, by rw [← he]⟩

theorem walks_exitScope (hc : s.code = c.append is) (he : s.env = env) :
    Walks c (exitScope s) (.ok ((), is, env.exit)) := ⟨rfl, hc, by rw [← he]⟩

/-- A warning leaves code and scopes alone. -/
theorem walks_warn (hc : s.code = c.append is) (he : s.env = env) (w : Warning) :
    Walks c (warn w s) (.ok ((), is, env)) := ⟨rfl, hc, he⟩

/-- What a use of a name does, given the state. -/
theorem resolve_apply (x : Ident) (s : State) : resolve x s =
    (match s.env.resolve x.name with
      | some a => pure a
      | none => throw (.undeclared x) : Gen Address) s := rfl

/-- A use of a name is located by the open scopes, or it is undeclared. -/
theorem walks_resolve (hc : s.code = c.append is) (he : s.env = env) (x : Ident) :
    Walks c (resolve x s) ((fun a => (a, is, env)) <$> env.locate x) := by
  subst he
  rw [resolve_apply]
  unfold Environment.locate
  cases s.env.resolve x.name with
  | none => exact rfl
  | some a => exact ⟨rfl, hc, rfl⟩

/-- What a use of a channel does, given the state. -/
theorem channel_apply (name : String) (s : State) : channel name s =
    (match s.env.resolve name with
      | some a => pure a
      | none => throw (.missingChannel name) : Gen Address) s := rfl

/-- A channel is looked up like a name, but its absence is an error of the generator. -/
theorem walks_channel (hc : s.code = c.append is) (he : s.env = env) (name : String) :
    Walks c (channel name s) ((fun a => (a, is, env)) <$> env.channel name) := by
  subst he
  rw [channel_apply]
  unfold Environment.channel
  cases s.env.resolve name with
  | none => exact rfl
  | some a => exact ⟨rfl, hc, rfl⟩

/-- An access to a cell, whose level and slot are known. -/
theorem walks_access (hc : s.code = c.append is) (he : s.env = env) (op : OpCode) (a : Address) :
    Walks c (access op a s) ((fun js => ((), is ++ js, env)) <$> accessCode op a) := by
  have h := walks_discard (walks_emitAt hc he op a.level a.symbol.slot)
  unfold accessCode
  rw [map_bind]
  exact h

/-- A part may warn or not before it goes on; the code is the same. -/
theorem walks_warning (hc : s.code = c.append is) (he : s.env = env) (p : Prop) [Decidable p]
    (w : Warning) {x : Gen α} {v : Except CodegenError (α × List Instruction × Environment)}
    (hx : ∀ s', s'.code = c.append is → s'.env = env → Walks c (x s') v) :
    Walks c ((if p then do warn w; x else x) s) v := by
  split
  · exact (walks_warn hc he w).andThen hx
  · exact hx s hc he

/-- What a declaration does, given the state. -/
theorem declare_apply (x : Ident) (kind : SymbolKind) (value : Option Int) (s : State) :
    declare x kind value s =
      (match (s.env.define x.name kind value).1 with
        | .fresh symbol => pure symbol.slot
        | .existing symbol => do
          warn (.redeclared x symbol.slot)
          pure symbol.slot : Gen Nat) { s with env := (s.env.define x.name kind value).2 } := rfl

/-- A declaration answers the slot of its name and changes the innermost scope; it emits nothing. -/
theorem walks_declare (hc : s.code = c.append is) (he : s.env = env) (x : Ident)
    (kind : SymbolKind) (value : Option Int) :
    Walks c (declare x kind value s)
      (.ok ((env.current.declare x.name kind value).1.symbol.slot, is,
        env.withCurrent (env.current.declare x.name kind value).2)) := by
  rw [declare_apply, he, Environment.define_eq]
  -- A name declared before keeps its symbol and leaves a warning; neither way emits code.
  cases (env.current.declare x.name kind value).1 with
  | fresh symbol => exact ⟨rfl, hc, rfl⟩
  | existing symbol => exact ⟨rfl, hc, rfl⟩

/-- What a patch does, given the state. -/
theorem patchOffset_apply (address value : Nat) (s : State) : patchOffset address value s =
    (match s.code.patch address .offset value with
      | .ok code => set { s with code }
      | .error e => throw (.buffer e) : Gen Unit) s := rfl

/-- A patch behind `is` changes the offset of the instruction there and neither adds nor removes
    any. -/
theorem walks_patch {i : Instruction} (hc : s.code = c.append (is ++ i :: js)) (he : s.env = env)
    (n : Nat) :
    Walks c (patchOffset (c.nextAddress + is.length) n s)
      ((fun v => ((), is ++ { i with offset := .number v } :: js, env)) <$> offset n) := by
  rw [patchOffset_apply, hc, Code.patch_append]
  unfold offset
  cases Code.offset? n with
  | none => exact rfl
  | some v => exact ⟨rfl, rfl, he⟩

/-- A patch with the next address, as for a jump over all that has been emitted since. -/
theorem walks_patchHere {i : Instruction} {a n : Nat} (hc : s.code = c.append (is ++ i :: js))
    (he : s.env = env) (ha : c.nextAddress + is.length = a)
    (hn : c.nextAddress + (is ++ i :: js).length = n) :
    Walks c (patchHere a s)
      ((fun v => ((), is ++ { i with offset := .number v } :: js, env)) <$> offset n) := by
  have h := walks_patch hc he n
  show Walks c (patchOffset a s.code.nextAddress s) _
  rw [hc, Code.nextAddress_append, hn, ← ha]
  exact h

/-! ## Expressions and conditions

These parts append their code and leave the scopes as they are, so the foretelling has always the
same form: the code `js` that the tree has under `env` comes behind `is`. -/

mutual

/-- A sign leaves a warning and no code. -/
theorem walks_expr (e : Expr) {s : State} {is : List Instruction} (hc : s.code = c.append is)
    (he : s.env = env) :
    Walks c (expr e s) ((fun js => ((), is ++ js, env)) <$> e.code env) := by
  cases e with
  | mk sign ts =>
    cases sign with
    | none => exact walks_terms ts hc he
    | some σ =>
      exact (walks_warn hc he _).andThen fun s' hc' he' => walks_terms ts hc' he'

/-- Left operand, right operand, operator. -/
theorem walks_terms (ts : Terms) {s : State} {is : List Instruction} (hc : s.code = c.append is)
    (he : s.env = env) :
    Walks c (terms ts s) ((fun js => ((), is ++ js, env)) <$> ts.code env) := by
  cases ts with
  | single t => exact walks_term t hc he
  | join left op right =>
    simp only [terms, Terms.code, map_bind, map_pure]
    refine (walks_terms left hc he).bind fun ls s₁ _ hc₁ he₁ => ?_
    refine (walks_term right hc₁ he₁).bind fun rs s₂ _ hc₂ he₂ => ?_
    exact (walks_push hc₂ he₂ (.apply (.arith op.arith))).congr (by simp [pure, Except.pure])

/-- Likewise for products. -/
theorem walks_term (t : Term) {s : State} {is : List Instruction} (hc : s.code = c.append is)
    (he : s.env = env) :
    Walks c (term t s) ((fun js => ((), is ++ js, env)) <$> t.code env) := by
  cases t with
  | single f => exact walks_factor f hc he
  | join left op right =>
    simp only [term, Term.code, map_bind, map_pure]
    refine (walks_term left hc he).bind fun ls s₁ _ hc₁ he₁ => ?_
    refine (walks_factor right hc₁ he₁).bind fun rs s₂ _ hc₂ he₂ => ?_
    exact (walks_push hc₂ he₂ (.apply (.arith op.arith))).congr (by simp [pure, Except.pure])

/-- Parentheses are walked through. -/
theorem walks_factor (f : Factor) {s : State} {is : List Instruction} (hc : s.code = c.append is)
    (he : s.env = env) :
    Walks c (factor f s) ((fun js => ((), is ++ js, env)) <$> f.code env) := by
  cases f with
  | ident x =>
    simp only [factor, Factor.code, map_bind]
    exact (walks_resolve hc he x).bind fun a s₁ _ hc₁ he₁ => walks_access hc₁ he₁ .lod a
  | number n => exact walks_push hc he _
  | group e => exact walks_expr e hc he

end

/-- The operands of a condition, and the operator behind them. -/
theorem walks_condition (b : Condition) (hc : s.code = c.append is) (he : s.env = env) :
    Walks c (condition b s) ((fun js => ((), is ++ js, env)) <$> b.code env) := by
  cases b with
  | odd e =>
    simp only [condition, Condition.code, map_bind, map_pure]
    refine (walks_expr e hc he).bind fun ls s₁ _ hc₁ he₁ => ?_
    exact (walks_push hc₁ he₁ (.apply .odd)).congr (by simp [pure, Except.pure])
  | compare left r right =>
    simp only [condition, Condition.code, map_bind, map_pure]
    refine (walks_expr left hc he).bind fun ls s₁ _ hc₁ he₁ => ?_
    refine (walks_expr right hc₁ he₁).bind fun rs s₂ _ hc₂ he₂ => ?_
    exact (walks_push hc₂ he₂ (.apply (.relation r))).congr (by simp [pure, Except.pure])

/-! ## Statements

Jumps are absolute. The code of a statement depends on the address `a` that it starts at, and the
lemmas carry along that this is the address at hand. -/

/-- A loop over phrases appends their codes in turn, if its body appends the code of a phrase. -/
theorem walks_forM {f : α → Gen Unit} {code : α → Except CodegenError (List Instruction)}
    (hf : ∀ x s is, s.code = c.append is → s.env = env →
      Walks c (f x s) ((fun js => ((), is ++ js, env)) <$> code x)) (xs : List α) {s : State}
    {is : List Instruction} (hc : s.code = c.append is) (he : s.env = env) :
    Walks c (xs.forM f s) ((fun js => ((), is ++ js, env)) <$> collect code xs) := by
  induction xs generalizing s is with
  | nil => exact ⟨rfl, by simpa using hc, he⟩
  | cons x xs ih =>
    simp only [collect, map_bind, map_pure]
    refine (hf x s is hc he).bind fun js s₁ _ hc₁ he₁ => ?_
    refine (ih hc₁ he₁).congr ?_
    simp

/-- A target of `read` is resolved first, then loaded from the channel and stored. -/
theorem walks_readTarget (input : Address) (x : Ident) (hc : s.code = c.append is)
    (he : s.env = env) :
    Walks c (readTarget input x s) ((fun js => ((), is ++ js, env)) <$> readCode env input x) := by
  simp only [readTarget, readCode, map_bind, map_pure]
  refine (walks_resolve hc he x).bind fun a s₁ _ hc₁ he₁ => ?_
  refine walks_warning hc₁ he₁ _ _ fun s₂ hc₂ he₂ => ?_
  refine (walks_access hc₂ he₂ .lod input).bind fun ls s₃ _ hc₃ he₃ => ?_
  exact (walks_access hc₃ he₃ .sto a).congr (by simp)

/-- A value of `write` is computed, then stored to the channel. -/
theorem walks_writeValue (output : Address) (e : Expr) (hc : s.code = c.append is)
    (he : s.env = env) :
    Walks c (writeValue output e s)
      ((fun js => ((), is ++ js, env)) <$> writeCode env output e) := by
  simp only [writeValue, writeCode, map_bind, map_pure]
  refine (walks_expr e hc he).bind fun ls s₁ _ hc₁ he₁ => ?_
  exact (walks_access hc₁ he₁ .sto output).congr (by simp)

mutual

/-- **A statement appends its code.** Where it contains a jump forward, this is emitted with the
    offset 0 and patched when its target is known; the code of the tree has the target at once. -/
theorem walks_statement (st : Statement) {s : State} {is : List Instruction} {a : Nat}
    (hc : s.code = c.append is) (he : s.env = env) (ha : c.nextAddress + is.length = a) :
    Walks c (statement st s) ((fun js => ((), is ++ js, env)) <$> st.code env a) := by
  cases st with
  | empty => exact ⟨rfl, by simpa using hc, he⟩
  | block body => exact walks_statements body hc he ha
  | read targets =>
    simp only [statement, Statement.code, map_bind]
    refine (walks_channel hc he readChannel).bind fun a s₁ _ hc₁ he₁ => ?_
    exact walks_forM (fun x s is hc he => walks_readTarget a x hc he) targets hc₁ he₁
  | write values =>
    simp only [statement, Statement.code, map_bind]
    refine (walks_channel hc he writeChannel).bind fun a s₁ _ hc₁ he₁ => ?_
    exact walks_forM (fun x s is hc he => walks_writeValue a x hc he) values hc₁ he₁
  | call x =>
    simp only [statement, Statement.code, map_bind]
    refine (walks_resolve hc he x).bind fun a s₁ _ hc₁ he₁ => ?_
    exact walks_warning hc₁ he₁ _ _ fun s₂ hc₂ he₂ => walks_access hc₂ he₂ .cal a
  | assign x e =>
    simp only [statement, Statement.code, map_bind]
    refine (walks_expr e hc he).bind fun js s₁ _ hc₁ he₁ => ?_
    refine (walks_resolve hc₁ he₁ x).bind fun a s₂ _ hc₂ he₂ => ?_
    refine walks_warning hc₂ he₂ _ _ fun s₃ hc₃ he₃ => ?_
    exact (walks_access hc₃ he₃ .sto a).congr (by simp)
  | ifThen b body =>
    simp only [statement, Statement.code, map_bind]
    refine (walks_condition b hc he).bind fun test s₁ _ hc₁ he₁ => ?_
    refine (walks_emit hc₁ he₁ _).andThen fun s₂ hc₂ he₂ => ?_
    refine (walks_statement body hc₂ he₂ (by simp; omega)).bind fun js s₃ _ hc₃ he₃ => ?_
    -- The `JPC` between test and body is patched with the address behind the body.
    have hc₃' : s₃.code = c.append ((is ++ test) ++ .make .jpc 0 0 :: js) := by
      rw [hc₃]; simp
    refine (walks_patchHere (n := a + test.length + 1 + js.length) hc₃' he₃ rfl
      (by simp; omega)).congr ?_
    simp [Instruction.make]
  | whileDo b body =>
    simp only [statement, Statement.code, map_bind]
    refine (walks_nextAddress hc he ha).andThen fun s₀ hc₀ he₀ => ?_
    refine (walks_condition b hc₀ he₀).bind fun test s₁ _ hc₁ he₁ => ?_
    refine (walks_emit hc₁ he₁ _).andThen fun s₂ hc₂ he₂ => ?_
    refine (walks_statement body hc₂ he₂ (by simp; omega)).bind fun js s₃ _ hc₃ he₃ => ?_
    refine (walks_discard (walks_emitAt hc₃ he₃ .jmp 0 a)).bind fun top s₄ _ hc₄ he₄ => ?_
    -- As for a branch, but the body is followed by the jump back, whose target is known already.
    have hc₄' : s₄.code =
        c.append ((is ++ test) ++ .make .jpc 0 0 :: (js ++ [.make .jmp 0 top])) := by
      rw [hc₄]; simp
    refine (walks_patchHere (n := a + test.length + 1 + js.length + 1) hc₄' he₄ rfl
      (by simp; omega)).congr ?_
    simp [Instruction.make]

/-- Each statement starts where the one in front of it ends. -/
theorem walks_statements (ss : List Statement) {s : State} {is : List Instruction} {a : Nat}
    (hc : s.code = c.append is) (he : s.env = env) (ha : c.nextAddress + is.length = a) :
    Walks c (statements ss s) ((fun js => ((), is ++ js, env)) <$> Statement.codes env a ss) := by
  cases ss with
  | nil => exact ⟨rfl, by simpa using hc, he⟩
  | cons st ss =>
    simp only [statements, Statement.codes, map_bind]
    refine (walks_statement st hc he ha).bind fun js s₁ _ hc₁ he₁ => ?_
    exact (walks_statements (a := a + js.length) ss hc₁ he₁ (by simp; omega)).congr (by simp)

end

/-! ## Declarations

Declarations change the innermost scope. What they do to it is a fold of `Scope.declareConst` and
its like, and a block starts this fold from the empty scope. -/

/-- A constant takes a slot, and code to fill it. -/
theorem walks_constDecl (d : ConstDecl) (hc : s.code = c.append is) (he : s.env = env) :
    Walks c (constDecl d s)
      ((fun js => ((), is ++ js, env.withCurrent (env.current.declareConst d))) <$>
        constCode env.current d) := by
  simp only [constDecl, constCode, map_bind, map_pure]
  refine (walks_declare hc he _ _ _).andThen fun s₁ hc₁ he₁ => ?_
  refine (walks_push hc₁ he₁ _).andThen fun s₂ hc₂ he₂ => ?_
  refine (walks_discard (walks_emitAt hc₂ he₂ _ _ _)).congr ?_
  simp [Scope.declareConst]

/-- Each constant is declared in the scope that those in front of it have left. -/
theorem walks_consts {scope : Scope} (ds : List ConstDecl) (hc : s.code = c.append is)
    (he : s.env = env.nest scope) :
    Walks c (ds.forM constDecl s)
      ((fun js => ((), is ++ js, env.nest (ds.foldl Scope.declareConst scope))) <$>
        constsCode scope ds) := by
  induction ds generalizing s is scope with
  | nil => exact ⟨rfl, by simpa using hc, he⟩
  | cons d ds ih =>
    simp only [constsCode, map_bind, map_pure, List.foldl_cons]
    refine (walks_constDecl d hc he).bind fun js s₁ _ hc₁ he₁ => ?_
    -- Only the innermost scope has changed; the induction goes on from the changed one.
    have he₁' : s₁.env = env.nest (scope.declareConst d) := he₁
    exact (ih hc₁ he₁').congr (by simp)

/-- Variables take slots and emit nothing. -/
theorem walks_vars {scope : Scope} (xs : List Ident) (hc : s.code = c.append is)
    (he : s.env = env.nest scope) :
    Walks c (xs.forM varDecl s) (.ok ((), is, env.nest (xs.foldl Scope.declareVar scope))) := by
  induction xs generalizing s scope with
  | nil => exact ⟨rfl, hc, he⟩
  | cons x xs ih =>
    have hx : Walks c (varDecl x s) (.ok ((), is, env.nest (scope.declareVar x))) :=
      walks_discard (v := .ok ()) (G := fun _ => _) (walks_declare hc he x .var none)
    exact hx.andThen fun s₁ hc₁ he₁ => ih hc₁ he₁

/-- The start of a block: its scope, its `INT`, its constants and variables. The answer is the
    address of the `INT`. -/
def prologue (consts : List ConstDecl) (vars : List Ident) : Gen Nat := do
  enterScope
  let opening ← emit (.make .int 0 0)
  consts.forM constDecl
  vars.forM varDecl
  return opening

/-- What stands in front of the block of a procedure. The answer is the address of the jump over
    it. -/
def header (name : Ident) : Gen Nat := do
  let slot ← declare name .procedure none
  let entry ← emit (.make .lit 0 0)
  discard (emitAt .sto 0 slot)
  let skip ← emit (.make .jmp 0 0)
  patchHere entry
  return skip

/-- A block is its start, its procedures and its statement. At its end the `INT` is patched with the
    number of slots, which only then is known. -/
theorem block_eq (consts : List ConstDecl) (vars : List Ident) (ps : List Procedure)
    (body : Statement) : block (.mk consts vars ps body) = (do
      let opening ← prologue consts vars
      procedures ps
      statement body
      patchOffset opening (← get).env.current.size
      discard (emit .leave)
      exitScope) := by
  simp only [block, prologue, bind_assoc, pure_bind]

/-- A procedure is what stands in front of its block, and the block. -/
theorem procedure_eq (name : Ident) (b : Block) : procedure (.mk name b) = (do
    let skip ← header name
    block b
    patchHere skip) := by
  simp only [procedure, header, bind_assoc, pure_bind]

/-- The scope of a block is open behind its start and contains the constants and variables. -/
theorem walks_prologue (consts : List ConstDecl) (vars : List Ident) (hc : s.code = c.append is)
    (he : s.env = env) :
    Walks c (prologue consts vars s)
      ((fun cs => (c.nextAddress + is.length, is ++ .make .int 0 0 :: cs,
        env.nest (vars.foldl Scope.declareVar (consts.foldl Scope.declareConst Scope.empty)))) <$>
        constsCode Scope.empty consts) := by
  refine (walks_enterScope hc he).andThen fun s₀ hc₀ he₀ => ?_
  refine (walks_emit hc₀ he₀ _).andThen fun s₁ hc₁ he₁ => ?_
  rw [map_eq_pure_bind]
  refine (walks_consts consts hc₁ he₁).bind fun cs s₂ _ hc₂ he₂ => ?_
  refine (walks_vars vars hc₂ he₂).andThen fun s₃ hc₃ he₃ => ?_
  exact ⟨rfl, by simpa using hc₃, he₃⟩

/-- The slot of a procedure's name and the address of its block, as offsets, where what stands in
    front of the block starts at `a`. -/
def headerOffsets (s : Scope) (x : Ident) (a : Nat) : Except CodegenError (Int × Int) := do
  let slot ← offset (s.declare x.name .procedure none).1.symbol.slot
  let entry ← offset (a + 3)
  return (slot, entry)

/-- In front of a block stand three instructions: the entry address, which is that behind them, its
    store into the slot of the name, and a jump over the block, still without a target. -/
theorem walks_header {a : Nat} (x : Ident) (hc : s.code = c.append is) (he : s.env = env)
    (ha : c.nextAddress + is.length = a) :
    Walks c (header x s)
      ((fun (slot, entry) =>
        (a + 2, is ++ [.make .lit 0 entry, .make .sto 0 slot, .make .jmp 0 0],
          env.withCurrent (env.current.declare x.name .procedure none).2)) <$>
        headerOffsets env.current x a) := by
  simp only [headerOffsets, map_bind, map_pure]
  refine (walks_declare hc he _ _ _).andThen fun s₁ hc₁ he₁ => ?_
  refine (walks_emit hc₁ he₁ _).andThen fun s₂ hc₂ he₂ => ?_
  refine (walks_discard (walks_emitAt hc₂ he₂ _ _ _)).bind fun slot s₃ _ hc₃ he₃ => ?_
  refine (walks_emit hc₃ he₃ _).andThen fun s₄ hc₄ he₄ => ?_
  -- The entry address is patched first: the block starts right behind the jump.
  have hc₄' : s₄.code =
      c.append (is ++ .make .lit 0 0 :: [.make .sto 0 slot, .make .jmp 0 0]) := by
    rw [hc₄]; simp
  refine (walks_patchHere (n := a + 3) hc₄' he₄ rfl
    (by simp; omega)).bind fun entry s₅ _ hc₅ he₅ => ?_
  exact ⟨by simp; omega, hc₅, he₅⟩

end

end Codegen

open Codegen

/-! ## Procedures

`Procedure.code` speaks of a scope and of those around it. `walks_procedure` is stated for the
scopes that are open, of which the innermost is the one that declares; `Procedure.codeFrom` puts the
code in these terms. -/

/-- The code of a procedure that is declared in the innermost of any scopes. -/
def Procedure.codeFrom (env : Environment) (a : Nat) :
    Procedure → Except CodegenError (List Instruction)
  | .mk x b => do
    let (slot, entry) ← headerOffsets env.current x a
    let is ← b.code (env.withCurrent (env.current.declareProcedure (.mk x b))) (a + 3)
    let skip ← offset (a + 3 + is.length)
    return .make .lit 0 entry :: .make .sto 0 slot :: .make .jmp 0 skip :: is

/-- For scopes that are nested, the two are the same. -/
theorem Procedure.codeFrom_nest (p : Procedure) (env : Environment) (s : Scope) (a : Nat) :
    p.codeFrom (env.nest s) a = p.code env s a := by
  cases p with
  | mk x b =>
    simp only [codeFrom, Procedure.code, headerOffsets, bind_assoc, pure_bind]
    rfl

/-- A procedure has code exactly if its slot, its entry address and the address behind its block are
    in range and its block has code. -/
theorem Procedure.codeFrom_eq_ok_iff {p : Procedure} {env : Environment} {a : Nat}
    {is : List Instruction} : p.codeFrom env a = .ok is ↔
      Word.InRange (env.current.declare p.name.name .procedure none).1.symbol.slot ∧
      Word.InRange (a + 3 : Nat) ∧
      ∃ bs, p.block.code (env.withCurrent (env.current.declareProcedure p)) (a + 3) = .ok bs ∧
        Word.InRange (a + 3 + bs.length : Nat) ∧
        .make .lit 0 ((a + 3 : Nat) : Int) ::
          .make .sto 0 ((env.current.declare p.name.name .procedure none).1.symbol.slot : Int) ::
          .make .jmp 0 ((a + 3 + bs.length : Nat) : Int) :: bs = is := by
  cases p with
  | mk x b =>
    simp only [codeFrom, headerOffsets, bind_assoc, pure_bind, bind_eq_ok_iff, pure_eq_ok_iff,
      offset_eq_ok_iff, and_assoc, exists_eq_left]
    rfl

namespace Codegen

/-! ## Blocks

Blocks and procedures contain each other. The scope that a block has opened is closed again at its
end, so blocks, unlike procedures, leave the scopes as they found them. -/

section

variable {c : Code}

mutual

/-- **A block appends its code** and leaves the scopes open that were open before. -/
theorem walks_block (b : Block) {s : State} {is : List Instruction} {env : Environment} {a : Nat}
    (hc : s.code = c.append is) (he : s.env = env) (ha : c.nextAddress + is.length = a) :
    Walks c (block b s) ((fun js => ((), is ++ js, env)) <$> b.code env a) := by
  cases b with
  | mk consts vars ps body =>
    rw [block_eq]
    simp only [Block.code, map_bind, map_pure]
    refine (walks_prologue consts vars hc he).bind fun cs s₃ _ hc₃ he₃ => ?_
    refine (walks_procedures ps hc₃ he₃ (by simp; omega)).bind fun js s₄ _ hc₄ he₄ => ?_
    refine (walks_statement body hc₄ he₄ (by simp; omega)).bind fun ks s₅ _ hc₅ he₅ => ?_
    refine (walks_get hc₅ he₅).andThen fun s₆ hc₆ he₆ => ?_
    -- The code since the start of the block, split at the `INT` that is patched now.
    have hc₆' : s₆.code = c.append (is ++ .make .int 0 0 :: (cs ++ js ++ ks)) := by
      rw [hc₆]; simp
    rw [he₅]
    refine (walks_patch hc₆' he₆ _).bind fun slots s₇ _ hc₇ he₇ => ?_
    refine (walks_push hc₇ he₇ _).andThen fun s₈ hc₈ he₈ => ?_
    refine (walks_exitScope hc₈ he₈).congr ?_
    simp [Instruction.make, Environment.exit_nest, pure, Except.pure]

/-- A procedure appends its code and declares its name in the innermost scope. -/
theorem walks_procedure (p : Procedure) {s : State} {is : List Instruction} {env : Environment}
    {a : Nat} (hc : s.code = c.append is) (he : s.env = env)
    (ha : c.nextAddress + is.length = a) :
    Walks c (procedure p s)
      ((fun js => ((), is ++ js, env.withCurrent (env.current.declareProcedure p))) <$>
        p.codeFrom env a) := by
  cases p with
  | mk x b =>
    rw [procedure_eq]
    simp only [Procedure.codeFrom, map_bind, map_pure]
    refine (walks_header x hc he ha).bind fun (slot, entry) s₅ _ hc₅ he₅ => ?_
    dsimp only at hc₅ he₅ ⊢
    refine (walks_block b hc₅ he₅ (by simp; omega)).bind fun js s₆ _ hc₆ he₆ => ?_
    -- The jump over the block is patched once the block has ended.
    have hc₆' : s₆.code = c.append
        ((is ++ [.make .lit 0 entry, .make .sto 0 slot]) ++ .make .jmp 0 0 :: js) := by
      rw [hc₆]; simp [Instruction.make]
    refine (walks_patchHere (n := a + 3 + js.length) hc₆' he₆ (by simp; omega)
      (by simp; omega)).congr ?_
    simp [Instruction.make, Scope.declareProcedure, Procedure.name]

/-- Each procedure starts where the one in front of it ends, and sees the names of those in
    front. -/
theorem walks_procedures (ps : List Procedure) {s : State} {is : List Instruction}
    {env : Environment} {scope : Scope} {a : Nat} (hc : s.code = c.append is)
    (he : s.env = env.nest scope) (ha : c.nextAddress + is.length = a) :
    Walks c (procedures ps s)
      ((fun js => ((), is ++ js, env.nest (ps.foldl Scope.declareProcedure scope))) <$>
        Procedure.codes env scope a ps) := by
  cases ps with
  | nil => exact ⟨rfl, by simpa using hc, he⟩
  | cons p ps =>
    simp only [procedures, Procedure.codes, map_bind, List.foldl_cons]
    rw [← p.codeFrom_nest]
    refine (walks_procedure p hc he ha).bind fun js s₁ _ hc₁ he₁ => ?_
    have he₁' : s₁.env = env.nest (scope.declareProcedure p) := he₁
    exact (walks_procedures (a := a + js.length) ps hc₁ he₁' (by simp; omega)).congr (by simp)

end

end

end Codegen

/-! ## Programs

The walk over a program starts from the empty buffer, so that what it appends is all there is. -/

/-- **The code of a program is the code of its outermost block**, and the walk fails exactly where
    that has no code, with the same error. -/
theorem compile_eq (p : Program) :
    p.compile.1 = List.toArray <$> p.block.code Environment.initial 0 := by
  have h : Codegen.Walks Code.empty (Codegen.block p.block Codegen.State.initial)
      ((fun is => ((), [] ++ is, Environment.initial)) <$> p.block.code Environment.initial 0) :=
    Codegen.walks_block p.block rfl rfl rfl
  -- Either both sides have code or both fail: `h` excludes the mixed cases.
  unfold Program.compile EStateM.run
  cases hr : Codegen.block p.block Codegen.State.initial with
  | ok u s =>
    cases hv : p.block.code Environment.initial 0 with
    | ok is =>
      rw [hr, hv] at h
      obtain ⟨-, hc, -⟩ := h
      show Except.ok s.code.instructions = _
      rw [hc]
      simp only [Code.append, Code.empty, List.nil_append, Array.empty_append]
      rfl
    | error e => rw [hr, hv] at h; exact h.elim
  | error e s =>
    cases hv : p.block.code Environment.initial 0 with
    | ok is => rw [hr, hv] at h; exact h.elim
    | error e' =>
      rw [hr, hv] at h
      exact congrArg Except.error h

end PL0
