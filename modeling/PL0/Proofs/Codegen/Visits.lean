import PL0.Proofs.Codegen.Names

/-!
# `Codegen.Visits` — the points that the walk comes to

What the walk does at a node depends on the buffer and the scopes that it comes there with.
`Program.Opens` says with which state it comes to a block, and `Program.Visits` with which state it
comes to a phrase of a statement part, down to the single lookups and to the accesses of the two
channels. Between two points the walk's own functions are run, and have to succeed.

Main statements: every block is opened at its place and with the scopes around it
(`Program.Opens.located`), the phrases of its statement part are visited with its scopes
(`Program.Visits.within`), and in a program that has code all blocks are opened
(`Program.Nested.opens`).
-/

namespace PL0

namespace Codegen

/-- The address of the next instruction. -/
def State.next (s : State) : Nat := s.code.nextAddress

/-- A part of the walk over a statement. -/
inductive Phrase where
  | statement (st : Statement)
  | statements (ss : List Statement)
  /-- The elements of a `read` statement, once the input channel has been found. -/
  | targets (input : Address) (xs : List Ident)
  /-- The elements of a `write` statement, once the output channel has been found. -/
  | values (output : Address) (es : List Expr)
  /-- The load of an element that is read. -/
  | input (a : Address)
  /-- The store of an element that is written. -/
  | output (a : Address)
  | condition (c : Condition)
  | expr (e : Expr)
  | terms (ts : Terms)
  | term (t : Term)
  | factor (f : Factor)
  /-- The lookup of an identifier. -/
  | use (x : Ident)

namespace Phrase

/-- The walk over the phrase. -/
def walk : Phrase → Gen Unit
  | statement st => Codegen.statement st
  | statements ss => Codegen.statements ss
  | targets a xs => xs.forM (readTarget a)
  | values a es => es.forM (writeValue a)
  | input a => access .lod a
  | output a => access .sto a
  | condition c => Codegen.condition c
  | expr e => Codegen.expr e
  | terms ts => Codegen.terms ts
  | term t => Codegen.term t
  | factor f => Codegen.factor f
  | use x => discard (resolve x)

/-- The code of the phrase where it starts at `x`. -/
def code (env : Environment) (x : Nat) : Phrase → Except CodegenError (List Instruction)
  | statement st => st.code env x
  | statements ss => Statement.codes env x ss
  | targets a xs => collect (readCode env a) xs
  | values a es => collect (writeCode env a) es
  | input a => accessCode .lod a
  | output a => accessCode .sto a
  | condition c => c.code env
  | expr e => e.code env
  | terms ts => ts.code env
  | term t => t.code env
  | factor f => f.code env
  | use x => (fun _ => []) <$> env.locate x

/-- The identifiers used in the phrase. -/
def idents : Phrase → List Ident
  | statement st => st.idents
  | statements ss => Statement.identsOf ss
  | targets _ xs => xs
  | values _ es => es.flatMap Expr.idents
  | input _ => []
  | output _ => []
  | condition c => c.idents
  | expr e => e.idents
  | terms ts => ts.idents
  | term t => t.idents
  | factor f => f.idents
  | use x => [x]

/-- The address in the phrase, if any, is the one that the channel's name leads to. -/
def Ports (env : Environment) : Phrase → Prop
  | targets a _ => env.resolve readChannel = some a
  | input a => env.resolve readChannel = some a
  | values a _ => env.resolve writeChannel = some a
  | output a => env.resolve writeChannel = some a
  | _ => True

variable {a : Phrase} {s s' : State} {js : List Instruction}

theorem append_nil (s : State) : s.code = s.code.append [] := by
  simp only [Code.append, Array.append_empty]

theorem walks (a : Phrase) (s : State) : Walks s.code (a.walk s)
    ((fun js => ((), [] ++ js, s.env)) <$> a.code s.env s.next) := by
  have hc := append_nil s
  cases a with
  | statement st => exact walks_statement st hc rfl rfl
  | statements ss => exact walks_statements ss hc rfl rfl
  | targets a xs => exact walks_forM (fun x _ _ hc he => walks_readTarget a x hc he) xs hc rfl
  | values a es => exact walks_forM (fun e _ _ hc he => walks_writeValue a e hc he) es hc rfl
  | input a => exact walks_access hc rfl .lod a
  | output a => exact walks_access hc rfl .sto a
  | condition c => exact walks_condition c hc rfl
  | expr e => exact walks_expr e hc rfl
  | terms ts => exact walks_terms ts hc rfl
  | term t => exact walks_term t hc rfl
  | factor f => exact walks_factor f hc rfl
  | use x =>
    refine (walks_discard (walks_resolve hc rfl x)).congr ?_
    simp [code]

/-- A walk that succeeds has emitted the code of the phrase and left the scopes as they were. -/
theorem code_of_walk (a : Phrase) (h : a.walk s = .ok () s') :
    ∃ js, a.code s.env s.next = .ok js ∧ s'.code = s.code.append js ∧ s'.env = s.env := by
  obtain ⟨js, hjs, -, hc, he⟩ := (a.walks s).of_ok h
  exact ⟨js, hjs, hc, he⟩

/-- The walk succeeds where the phrase has code. -/
theorem walk_of_code (a : Phrase) (h : a.code s.env s.next = .ok js) :
    ∃ s', a.walk s = .ok () s' ∧ s'.code = s.code.append js ∧ s'.env = s.env :=
  (a.walks s).to_ok h

end Phrase

/-! ## From phrase to phrase -/

/-- The walk over the first phrase, begun in the first state, comes to the second phrase in the
    second state, with nothing but the walk's own steps in between. -/
inductive Phrase.Leads : Phrase → State → Phrase → State → Prop
  | body {ss : List Statement} {s : State} :
      Leads (.statement (.block ss)) s (.statements ss) s
  | first {st : Statement} {ss : List Statement} {s : State} :
      Leads (.statements (st :: ss)) s (.statement st) s
  | rest {st : Statement} {ss : List Statement} {s s' : State} :
      Codegen.statement st s = .ok () s' → Leads (.statements (st :: ss)) s (.statements ss) s'
  | read {xs : List Ident} {a : Address} {s s' : State} :
      channel readChannel s = .ok a s' → Leads (.statement (.read xs)) s (.targets a xs) s'
  | target {x : Ident} {xs : List Ident} {a : Address} {s : State} :
      Leads (.targets a (x :: xs)) s (.use x) s
  | input {x : Ident} {xs : List Ident} {a b : Address} {s s₁ s' : State} :
      resolve x s = .ok b s₁ →
      (if b.symbol.kind ≠ .var then warn (.readInto x) else pure () : Gen Unit) s₁ = .ok () s' →
      Leads (.targets a (x :: xs)) s (.input a) s'
  | nextTarget {x : Ident} {xs : List Ident} {a : Address} {s s' : State} :
      readTarget a x s = .ok () s' → Leads (.targets a (x :: xs)) s (.targets a xs) s'
  | write {es : List Expr} {a : Address} {s s' : State} :
      channel writeChannel s = .ok a s' → Leads (.statement (.write es)) s (.values a es) s'
  | value {e : Expr} {es : List Expr} {a : Address} {s : State} :
      Leads (.values a (e :: es)) s (.expr e) s
  | output {e : Expr} {es : List Expr} {a : Address} {s s' : State} :
      Codegen.expr e s = .ok () s' → Leads (.values a (e :: es)) s (.output a) s'
  | nextValue {e : Expr} {es : List Expr} {a : Address} {s s' : State} :
      writeValue a e s = .ok () s' → Leads (.values a (e :: es)) s (.values a es) s'
  | callee {x : Ident} {s : State} : Leads (.statement (.call x)) s (.use x) s
  | loopTest {c : Condition} {body : Statement} {s : State} :
      Leads (.statement (.whileDo c body)) s (.condition c) s
  | loopBody {c : Condition} {body : Statement} {n : Nat} {s s₁ s' : State} :
      Codegen.condition c s = .ok () s₁ → emit (.make .jpc 0 0) s₁ = .ok n s' →
      Leads (.statement (.whileDo c body)) s (.statement body) s'
  | assigned {x : Ident} {e : Expr} {s : State} : Leads (.statement (.assign x e)) s (.expr e) s
  | assignee {x : Ident} {e : Expr} {s s' : State} : Codegen.expr e s = .ok () s' →
      Leads (.statement (.assign x e)) s (.use x) s'
  | branchTest {c : Condition} {body : Statement} {s : State} :
      Leads (.statement (.ifThen c body)) s (.condition c) s
  | branchBody {c : Condition} {body : Statement} {n : Nat} {s s₁ s' : State} :
      Codegen.condition c s = .ok () s₁ → emit (.make .jpc 0 0) s₁ = .ok n s' →
      Leads (.statement (.ifThen c body)) s (.statement body) s'
  | odd {e : Expr} {s : State} : Leads (.condition (.odd e)) s (.expr e) s
  | left {l r : Expr} {rel : Relation} {s : State} :
      Leads (.condition (.compare l rel r)) s (.expr l) s
  | right {l r : Expr} {rel : Relation} {s s' : State} : Codegen.expr l s = .ok () s' →
      Leads (.condition (.compare l rel r)) s (.expr r) s'
  | unsigned {ts : Terms} {s : State} : Leads (.expr (.mk none ts)) s (.terms ts) s
  | signed {sign : Sign} {ts : Terms} {s s' : State} :
      warn (.leadingSign sign (.mk (some sign) ts)) s = .ok () s' →
      Leads (.expr (.mk (some sign) ts)) s (.terms ts) s'
  | oneTerm {t : Term} {s : State} : Leads (.terms (.single t)) s (.term t) s
  | leftTerms {l : Terms} {op : AddOp} {r : Term} {s : State} :
      Leads (.terms (.join l op r)) s (.terms l) s
  | rightTerm {l : Terms} {op : AddOp} {r : Term} {s s' : State} : Codegen.terms l s = .ok () s' →
      Leads (.terms (.join l op r)) s (.term r) s'
  | oneFactor {f : Factor} {s : State} : Leads (.term (.single f)) s (.factor f) s
  | leftTerm {l : Term} {op : MulOp} {r : Factor} {s : State} :
      Leads (.term (.join l op r)) s (.term l) s
  | rightFactor {l : Term} {op : MulOp} {r : Factor} {s s' : State} :
      Codegen.term l s = .ok () s' → Leads (.term (.join l op r)) s (.factor r) s'
  | operand {x : Ident} {s : State} : Leads (.factor (.ident x)) s (.use x) s
  | group {e : Expr} {s : State} : Leads (.factor (.group e)) s (.expr e) s

namespace Phrase

variable {a b : Phrase} {s s' : State} {js : List Instruction}

/-- The code of the second phrase is a piece of the code of the first, at its place. -/
def PieceOf (env : Environment) (b : Phrase) (y : Nat) (a : Phrase) (x : Nat) : Prop :=
  ∀ js, a.code env x = .ok js → ∃ front cs back, js = front ++ cs ++ back ∧
    b.code env y = .ok cs ∧ y = x + front.length

/-- A lookup that succeeds answers where the name leads and changes nothing, whatever the error would
    have been. -/
theorem lookup_ok {e : CodegenError} {name : String} {c : Address}
    (h : (match s.env.resolve name with
      | some a => pure a
      | none => throw e : Gen Address) s = .ok c s') :
    s' = s ∧ s.env.resolve name = some c := by
  cases hx : s.env.resolve name with
  | none =>
    rw [hx] at h
    cases h
  | some d =>
    rw [hx] at h
    cases h
    exact ⟨rfl, rfl⟩

theorem resolve_ok {x : Ident} {c : Address} (h : resolve x s = .ok c s') :
    s' = s ∧ s.env.resolve x.name = some c := lookup_ok ((resolve_apply x s).symm.trans h)

theorem channel_ok {name : String} {c : Address} (h : channel name s = .ok c s') :
    s' = s ∧ s.env.resolve name = some c := lookup_ok ((channel_apply name s).symm.trans h)

theorem resolve_of_eq {x : Ident} {c : Address} (h : s.env.resolve x.name = some c) :
    resolve x s = .ok c s := by
  rw [resolve_apply, h]
  rfl

theorem channel_of_eq {name : String} {c : Address} (h : s.env.resolve name = some c) :
    channel name s = .ok c s := by
  rw [channel_apply, h]
  rfl

theorem emit_ok {i : Instruction} {n : Nat} (h : emit i s = .ok n s') :
    s'.code = s.code.append [i] ∧ s'.env = s.env := by
  cases h
  exact ⟨congrArg Prod.snd (Code.emit_eq s.code i), rfl⟩

theorem warned_ok {p : Prop} [Decidable p] {w : Warning}
    (h : (if p then warn w else pure () : Gen Unit) s = .ok () s') :
    s'.code = s.code ∧ s'.env = s.env := by
  by_cases hp : p
  · rw [if_pos hp] at h
    cases h
    exact ⟨rfl, rfl⟩
  · rw [if_neg hp] at h
    cases h
    exact ⟨rfl, rfl⟩

theorem next_of_append (h : s'.code = s.code.append js) : s'.next = s.next + js.length := by
  unfold State.next
  rw [h, Code.nextAddress_append]

/-- A phrase with the same code is all of it. -/
theorem PieceOf.whole {env : Environment} {x : Nat} (h : b.code env x = a.code env x) :
    PieceOf env b x a x := by
  intro js hjs
  exact ⟨[], js, [], (List.append_nil js).symm, h.trans hjs, rfl⟩

/-- A lookup that succeeds has no code. -/
theorem use_code {env : Environment} {x : Ident} {c : Address} {y : Nat}
    (h : env.resolve x.name = some c) : (use x).code env y = .ok [] := by
  rw [code, locate_eq_ok_iff.2 h]
  rfl

/-- The lookup that a phrase begins with. -/
theorem PieceOf.lookup {env : Environment} {x : Ident} {y : Nat}
    (h : ∀ js, a.code env y = .ok js → ∃ c, env.resolve x.name = some c) :
    PieceOf env (use x) y a y := by
  intro js hjs
  obtain ⟨c, hc⟩ := h js hjs
  exact ⟨[], [], js, rfl, use_code hc, rfl⟩

/-- Behind the lookup of a channel, what comes next has the address found. -/
theorem PieceOf.channel {name : String} {c : Address} {f : Address → Phrase}
    (hch : Codegen.channel name s = .ok c s')
    (h : ∀ js, a.code s.env s.next = .ok js →
      ∃ d, s.env.resolve name = some d ∧ (f d).code s.env s.next = .ok js) :
    s'.env = s.env ∧ PieceOf s.env (f c) s'.next a s.next := by
  obtain ⟨rfl, hc⟩ := channel_ok hch
  refine ⟨rfl, fun js hjs => ?_⟩
  obtain ⟨d, hd, hcode⟩ := h js hjs
  cases hc.symm.trans hd
  exact ⟨[], js, [], (List.append_nil js).symm, hcode, rfl⟩

/-- The piece right behind a part of the walk that has succeeded; `v` is the code of this part. -/
theorem PieceOf.behind {v : Except CodegenError (List Instruction)}
    (hw : ∃ is, v = .ok is ∧ s'.code = s.code.append is ∧ s'.env = s.env)
    (h : ∀ js, a.code s.env s.next = .ok js → ∃ is, v = .ok is ∧
      ∃ ks, b.code s.env (s.next + is.length) = .ok ks ∧ ∃ back, js = is ++ ks ++ back) :
    s'.env = s.env ∧ PieceOf s.env b s'.next a s.next := by
  obtain ⟨is, his, hc, he⟩ := hw
  refine ⟨he, fun js hjs => ?_⟩
  obtain ⟨is', his', ks, hks, back, rfl⟩ := h js hjs
  cases his.symm.trans his'
  have hnext := next_of_append hc
  exact ⟨is, ks, back, rfl, hnext ▸ hks, hnext⟩

/-- The rest of a list lies behind its first element. -/
theorem PieceOf.rest {v : Except CodegenError (List Instruction)}
    (hw : ∃ is, v = .ok is ∧ s'.code = s.code.append is ∧ s'.env = s.env)
    (h : ∀ js, a.code s.env s.next = .ok js → ∃ is, v = .ok is ∧
      ∃ ks, b.code s.env (s.next + is.length) = .ok ks ∧ is ++ ks = js) :
    s'.env = s.env ∧ PieceOf s.env b s'.next a s.next := by
  refine behind hw fun js hjs => ?_
  obtain ⟨is, his, ks, hks, rfl⟩ := h js hjs
  exact ⟨is, his, ks, hks, [], (List.append_nil _).symm⟩

/-- The left operand is the first piece of an operation, -/
theorem PieceOf.left {env : Environment} {x : Nat} {v : Except CodegenError (List Instruction)}
    {i : Instruction} (h : ∀ js, a.code env x = .ok js →
      ∃ ls, b.code env x = .ok ls ∧ ∃ rs, v = .ok rs ∧ ls ++ rs ++ [i] = js) :
    PieceOf env b x a x := by
  intro js hjs
  obtain ⟨ls, hls, rs, -, rfl⟩ := h js hjs
  exact ⟨[], ls, rs ++ [i], List.append_assoc .., hls, rfl⟩

/-- and the right operand the second. -/
theorem PieceOf.right {v : Except CodegenError (List Instruction)} {i : Instruction}
    (hw : ∃ is, v = .ok is ∧ s'.code = s.code.append is ∧ s'.env = s.env)
    (h : ∀ js, a.code s.env s.next = .ok js → ∃ ls, v = .ok ls ∧
      ∃ rs, b.code s.env (s.next + ls.length) = .ok rs ∧ ls ++ rs ++ [i] = js) :
    s'.env = s.env ∧ PieceOf s.env b s'.next a s.next := by
  refine behind hw fun js hjs => ?_
  obtain ⟨ls, hls, rs, hrs, rfl⟩ := h js hjs
  exact ⟨ls, hls, rs, hrs, [i], rfl⟩

/-- Behind a test and the `JPC` that follows it. -/
theorem behind_test {c : Condition} {n : Nat} {s₁ : State}
    (hw : Codegen.condition c s = .ok () s₁) (hem : emit (.make .jpc 0 0) s₁ = .ok n s') :
    ∃ test, c.code s.env = .ok test ∧ s'.env = s.env ∧ s'.next = s.next + test.length + 1 := by
  obtain ⟨test, ht, hc₁, he₁⟩ := code_of_walk (.condition c) hw
  obtain ⟨hc, he⟩ := emit_ok hem
  refine ⟨test, ht, he.trans he₁, ?_⟩
  rw [next_of_append hc, next_of_append hc₁]
  rfl

/-- The body of a loop or of a branch lies behind the test and the `JPC`. -/
theorem PieceOf.guarded {c : Condition} {body : Statement} {n : Nat} {s₁ : State}
    (hw : Codegen.condition c s = .ok () s₁) (hem : emit (.make .jpc 0 0) s₁ = .ok n s')
    (h : ∀ js, a.code s.env s.next = .ok js → ∃ test, c.code s.env = .ok test ∧
      ∃ bs, body.code s.env (s.next + test.length + 1) = .ok bs ∧
        ∃ i back, js = test ++ i :: (bs ++ back)) :
    s'.env = s.env ∧ PieceOf s.env (statement body) s'.next a s.next := by
  obtain ⟨test, ht, he, hnext⟩ := behind_test hw hem
  refine ⟨he, fun js hjs => ?_⟩
  obtain ⟨test', ht', bs, hbs, i, back, rfl⟩ := h js hjs
  cases ht.symm.trans ht'
  refine ⟨test ++ [i], bs, back, by simp, hnext ▸ hbs, ?_⟩
  rw [hnext, List.length_append, List.length_singleton, Nat.add_assoc]

/-- **From a phrase the walk leads to a piece of it**, in the same scopes. -/
theorem Leads.piece (h : Leads a s b s') :
    s'.env = s.env ∧ PieceOf s.env b s'.next a s.next := by
  cases h with
  | body => exact ⟨rfl, .whole rfl⟩
  | first =>
    refine ⟨rfl, fun js hjs => ?_⟩
    obtain ⟨is, his, ks, -, rfl⟩ := Statement.codes_cons_eq_ok_iff.1 hjs
    exact ⟨[], is, ks, rfl, his, rfl⟩
  | @rest st _ _ _ hw =>
    exact PieceOf.rest (code_of_walk (.statement st) hw) fun _ => Statement.codes_cons_eq_ok_iff.1
  | @read xs _ _ _ hch =>
    exact PieceOf.channel (f := fun c => .targets c xs) hch fun _ =>
      (Statement.code_read_eq_ok_iff (a := s.next)).1
  | target =>
    refine ⟨rfl, .lookup fun js hjs => ?_⟩
    obtain ⟨is, his, -⟩ := collect_cons_eq_ok_iff.1 hjs
    obtain ⟨c, hc, -⟩ := readCode_eq_ok_iff.1 his
    exact ⟨c, hc⟩
  | input hres hwarn =>
    obtain ⟨rfl, -⟩ := resolve_ok hres
    obtain ⟨hc, he⟩ := warned_ok hwarn
    refine ⟨he, fun js hjs => ?_⟩
    obtain ⟨_, his, ks, -, rfl⟩ := collect_cons_eq_ok_iff.1 hjs
    obtain ⟨_, -, hslot, -, rfl⟩ := readCode_eq_ok_iff.1 his
    refine ⟨[], _, _, List.append_assoc .., ?_, congrArg Code.nextAddress hc⟩
    exact accessCode_eq_ok_iff.2 ⟨rfl, hslot⟩
  | @nextTarget x _ c _ _ hw =>
    obtain ⟨is, his, -, hwalk⟩ := (walks_readTarget c x (append_nil s) rfl).of_ok hw
    exact PieceOf.rest ⟨is, his, hwalk⟩ fun _ => collect_cons_eq_ok_iff.1
  | @write es _ _ _ hch =>
    exact PieceOf.channel (f := fun c => .values c es) hch fun _ =>
      (Statement.code_write_eq_ok_iff (a := s.next)).1
  | value =>
    refine ⟨rfl, fun js hjs => ?_⟩
    obtain ⟨_, his, ks, -, rfl⟩ := collect_cons_eq_ok_iff.1 hjs
    obtain ⟨es, hes, -, rfl⟩ := writeCode_eq_ok_iff.1 his
    exact ⟨[], es, _, List.append_assoc .., hes, rfl⟩
  | @output e _ _ _ _ hw =>
    refine PieceOf.behind (code_of_walk (.expr e) hw) fun js hjs => ?_
    obtain ⟨_, his, ks, -, rfl⟩ := collect_cons_eq_ok_iff.1 hjs
    obtain ⟨es, hes, hslot, rfl⟩ := writeCode_eq_ok_iff.1 his
    exact ⟨es, hes, _, accessCode_eq_ok_iff.2 ⟨rfl, hslot⟩, ks, rfl⟩
  | @nextValue e _ c _ _ hw =>
    obtain ⟨is, his, -, hwalk⟩ := (walks_writeValue c e (append_nil s) rfl).of_ok hw
    exact PieceOf.rest ⟨is, his, hwalk⟩ fun _ => collect_cons_eq_ok_iff.1
  | callee =>
    refine ⟨rfl, .lookup fun js hjs => ?_⟩
    obtain ⟨c, hc, -⟩ := (Statement.code_call_eq_ok_iff (a := s.next)).1 hjs
    exact ⟨c, hc⟩
  | loopTest =>
    refine ⟨rfl, fun js hjs => ?_⟩
    obtain ⟨test, ht, bs, -, -, -, rfl⟩ := Statement.code_whileDo_eq_ok_iff.1 hjs
    exact ⟨[], test, _, rfl, ht, rfl⟩
  | loopBody hw hem =>
    refine PieceOf.guarded hw hem fun js hjs => ?_
    obtain ⟨test, ht, bs, hbs, -, -, rfl⟩ := Statement.code_whileDo_eq_ok_iff.1 hjs
    exact ⟨test, ht, bs, hbs, _, _, rfl⟩
  | assigned =>
    refine ⟨rfl, fun js hjs => ?_⟩
    obtain ⟨es, hes, c, -, -, rfl⟩ := (Statement.code_assign_eq_ok_iff (a := s.next)).1 hjs
    exact ⟨[], es, _, rfl, hes, rfl⟩
  | @assignee _ e _ _ hw =>
    refine PieceOf.behind (code_of_walk (.expr e) hw) fun js hjs => ?_
    obtain ⟨es, hes, c, hc, -, rfl⟩ := (Statement.code_assign_eq_ok_iff (a := s.next)).1 hjs
    exact ⟨es, hes, [], use_code hc, _, (List.append_assoc es [] _).symm⟩
  | branchTest =>
    refine ⟨rfl, fun js hjs => ?_⟩
    obtain ⟨test, ht, bs, -, -, rfl⟩ := Statement.code_ifThen_eq_ok_iff.1 hjs
    exact ⟨[], test, _, rfl, ht, rfl⟩
  | branchBody hw hem =>
    refine PieceOf.guarded hw hem fun js hjs => ?_
    obtain ⟨test, ht, bs, hbs, -, rfl⟩ := Statement.code_ifThen_eq_ok_iff.1 hjs
    exact ⟨test, ht, bs, hbs, _, [], by rw [List.append_nil]⟩
  | odd =>
    refine ⟨rfl, fun js hjs => ?_⟩
    obtain ⟨es, hes, rfl⟩ := Condition.code_odd_eq_ok_iff.1 hjs
    exact ⟨[], es, _, rfl, hes, rfl⟩
  | left => exact ⟨rfl, .left fun _ => Condition.code_compare_eq_ok_iff.1⟩
  | @right l _ _ _ _ hw =>
    exact PieceOf.right (code_of_walk (.expr l) hw) fun _ => Condition.code_compare_eq_ok_iff.1
  | unsigned => exact ⟨rfl, .whole rfl⟩
  | signed hwarn =>
    cases hwarn
    exact ⟨rfl, .whole rfl⟩
  | oneTerm => exact ⟨rfl, .whole rfl⟩
  | leftTerms => exact ⟨rfl, .left fun _ => Terms.code_join_eq_ok_iff.1⟩
  | @rightTerm l _ _ _ _ hw =>
    exact PieceOf.right (code_of_walk (.terms l) hw) fun _ => Terms.code_join_eq_ok_iff.1
  | oneFactor => exact ⟨rfl, .whole rfl⟩
  | leftTerm => exact ⟨rfl, .left fun _ => Term.code_join_eq_ok_iff.1⟩
  | @rightFactor l _ _ _ _ hw =>
    exact PieceOf.right (code_of_walk (.term l) hw) fun _ => Term.code_join_eq_ok_iff.1
  | operand =>
    refine ⟨rfl, .lookup fun js hjs => ?_⟩
    obtain ⟨c, hc, -⟩ := Factor.code_ident_eq_ok_iff.1 hjs
    exact ⟨c, hc⟩
  | group => exact ⟨rfl, .whole rfl⟩

theorem PieceOf.trans {c : Phrase} {env : Environment} {x y z : Nat} (h : PieceOf env c z b y)
    (h' : PieceOf env b y a x) : PieceOf env c z a x := by
  intro js hjs
  obtain ⟨front, cs, back, rfl, hcs, rfl⟩ := h' js hjs
  obtain ⟨front', ds, back', rfl, hds, rfl⟩ := h cs hcs
  refine ⟨front ++ front', ds, back' ++ back, ?_, hds, ?_⟩
  · simp only [List.append_assoc]
  · rw [List.length_append, Nat.add_assoc]

/-- A phrase uses the identifiers of its pieces. -/
theorem Leads.idents_subset (h : Leads a s b s') : ∀ x ∈ b.idents, x ∈ a.idents := by
  cases h <;> intro x hx <;>
    simp only [idents, Statement.idents, Statement.identsOf, Condition.idents, Expr.idents,
      Terms.idents, Term.idents, Factor.idents, List.flatMap_cons, List.mem_append, List.mem_cons,
      List.not_mem_nil, or_false] at hx ⊢ <;> tauto

/-- The elements of a `read` or `write` statement get the address that its channel has. -/
theorem Leads.ports (h : Leads a s b s') (ha : a.Ports s.env) : b.Ports s.env := by
  cases h with
  | read hch => exact (channel_ok hch).2
  | write hch => exact (channel_ok hch).2
  | input _ _ => exact ha
  | output _ => exact ha
  | nextTarget _ => exact ha
  | nextValue _ => exact ha
  | _ => trivial

theorem bind_ok {α β : Type} {x : Gen α} {f : α → Gen β} {v : α} {s₁ : State}
    (h : x s = .ok v s₁) : (x >>= f) s = f v s₁ := by
  show EStateM.bind x f s = _
  rw [EStateM.bind, h]

theorem bind_error {α β : Type} {x : Gen α} {f : α → Gen β} {e : CodegenError}
    (h : x s = .error e s') : (x >>= f) s = .error e s' := by
  show EStateM.bind x f s = _
  rw [EStateM.bind, h]

theorem nextAddress_ok (s : State) : nextAddress s = .ok s.next s := rfl

theorem resolve_error {x : Ident} {e : CodegenError} (h : (use x).walk s = .error e s') :
    resolve x s = .error e s' := by
  change EStateM.map _ (resolve x) s = _ at h
  unfold EStateM.map at h
  cases hr : resolve x s with
  | ok c s₁ =>
    rw [hr] at h
    cases h
  | error e' s₁ =>
    rw [hr] at h
    cases h
    rfl

/-- **What a piece fails with, the phrase fails with**: the walk over the phrase runs it. -/
theorem Leads.error {e : CodegenError} {s₁ : State} (h : Leads a s b s')
    (hb : b.walk s' = .error e s₁) : a.walk s = .error e s₁ := by
  cases h with
  | body => exact hb
  | first => exact bind_error hb
  | rest hw => exact (bind_ok hw).trans hb
  | read hch => exact (bind_ok hch).trans hb
  | target => exact bind_error (bind_error (resolve_error hb))
  | @input x xs a' b' _ s₂ _ hres hwarn =>
    refine bind_error ((bind_ok hres).trans ?_)
    by_cases hkind : b'.symbol.kind ≠ .var
    · rw [if_pos hkind] at hwarn ⊢
      exact (bind_ok hwarn).trans (bind_error hb)
    · rw [if_neg hkind] at hwarn ⊢
      cases hwarn
      exact bind_error hb
  | nextTarget hw => exact (bind_ok hw).trans hb
  | write hch => exact (bind_ok hch).trans hb
  | value => exact bind_error (bind_error hb)
  | output hw => exact bind_error ((bind_ok hw).trans hb)
  | nextValue hw => exact (bind_ok hw).trans hb
  | callee => exact bind_error (resolve_error hb)
  | loopTest => exact (bind_ok (nextAddress_ok s)).trans (bind_error hb)
  | loopBody hw hem =>
    refine (bind_ok (nextAddress_ok s)).trans ((bind_ok hw).trans ?_)
    exact (bind_ok hem).trans (bind_error hb)
  | assigned => exact bind_error hb
  | assignee hw => exact (bind_ok hw).trans (bind_error (resolve_error hb))
  | branchTest => exact bind_error hb
  | branchBody hw hem => exact (bind_ok hw).trans ((bind_ok hem).trans (bind_error hb))
  | odd => exact bind_error hb
  | left => exact bind_error hb
  | right hw => exact (bind_ok hw).trans (bind_error hb)
  | unsigned => exact hb
  | signed hwarn => exact (bind_ok hwarn).trans hb
  | oneTerm => exact hb
  | leftTerms => exact bind_error hb
  | rightTerm hw => exact (bind_ok hw).trans (bind_error hb)
  | oneFactor => exact hb
  | leftTerm => exact bind_error hb
  | rightFactor hw => exact (bind_ok hw).trans (bind_error hb)
  | operand => exact bind_error (resolve_error hb)
  | group => exact hb

end Phrase

/-! ## From block to block -/

section

variable {env : Environment} {sc : Scope} {s s' : State} {consts : List ConstDecl}
  {vars : List Ident} {ps : List Procedure} {x : Ident} {n : Nat}

theorem prologue_ok (h : prologue consts vars s = .ok n s') :
    s'.env = s.env.nest (vars.foldl Scope.declareVar
        (consts.foldl Scope.declareConst Scope.empty)) ∧
      s'.next = s.next + 1 + 2 * consts.length := by
  obtain ⟨cs, hcs, -, hc, he⟩ :=
    (walks_prologue consts vars (Phrase.append_nil s) rfl).of_ok h
  refine ⟨he, ?_⟩
  rw [Phrase.next_of_append hc, ← length_constsCode hcs]
  simp only [List.nil_append, List.length_cons]
  omega

theorem prologue_of_code {cs : List Instruction} (h : constsCode Scope.empty consts = .ok cs)
    (vars : List Ident) (s : State) : ∃ n s', prologue consts vars s = .ok n s' := by
  obtain ⟨s', hs', -⟩ := (walks_prologue consts vars (Phrase.append_nil s) rfl).to_ok h
  exact ⟨_, s', hs'⟩

theorem procedures_ok (henv : s.env = env.nest sc) (h : procedures ps s = .ok () s') :
    s'.env = env.nest (ps.foldl Scope.declareProcedure sc) ∧
      s'.next = s.next + Procedure.codeSizes ps := by
  obtain ⟨js, hjs, -, hc, he⟩ :=
    (walks_procedures ps (Phrase.append_nil s) henv rfl).of_ok h
  refine ⟨he, ?_⟩
  rw [Phrase.next_of_append hc, ← Procedure.length_codes hjs, List.nil_append]

theorem procedures_of_code {js : List Instruction} (henv : s.env = env.nest sc)
    (h : Procedure.codes env sc s.next ps = .ok js) : ∃ s', procedures ps s = .ok () s' := by
  obtain ⟨s', hs', -⟩ := (walks_procedures ps (Phrase.append_nil s) henv rfl).to_ok h
  exact ⟨s', hs'⟩

theorem header_ok (henv : s.env = env.nest sc) (h : header x s = .ok n s') :
    s'.env = env.nest (sc.declare x.name .procedure none).2 ∧ s'.next = s.next + 3 := by
  obtain ⟨_, -, -, hc, he⟩ := (walks_header x (Phrase.append_nil s) henv rfl).of_ok h
  refine ⟨he, ?_⟩
  rw [Phrase.next_of_append hc]
  rfl

theorem header_of_code {b : Block} {js : List Instruction} (henv : s.env = env.nest sc)
    (h : (Procedure.mk x b).code env sc s.next = .ok js) : ∃ n s', header x s = .ok n s' := by
  obtain ⟨hslot, hentry, -⟩ := Procedure.code_eq_ok_iff.1 h
  obtain ⟨_, hoffsets⟩ : ∃ offsets, headerOffsets sc x s.next = .ok offsets := by
    simp only [headerOffsets, bind_eq_ok_iff, pure_eq_ok_iff, offset_eq_ok_iff]
    exact ⟨_, _, ⟨rfl, hslot⟩, _, ⟨rfl, hentry⟩, rfl⟩
  obtain ⟨s', hs', -⟩ := (walks_header x (Phrase.append_nil s) henv rfl).to_ok hoffsets
  exact ⟨_, s', hs'⟩

/-- Of procedures that have code, those in front of one have, and that one behind them. -/
theorem codes_split {a : Nat} {qs rs : List Procedure} {q : Procedure} {js : List Instruction}
    (h : Procedure.codes env sc a (qs ++ q :: rs) = .ok js) :
    (∃ is, Procedure.codes env sc a qs = .ok is) ∧
      ∃ ks, q.code env (qs.foldl Scope.declareProcedure sc) (a + Procedure.codeSizes qs) =
        .ok ks := by
  induction qs generalizing sc a js with
  | nil =>
    obtain ⟨ks, hks, -⟩ := Procedure.codes_cons_eq_ok_iff.1 h
    exact ⟨⟨[], rfl⟩, ks, hks⟩
  | cons r qs ih =>
    obtain ⟨is, his, _, hrest, -⟩ := Procedure.codes_cons_eq_ok_iff.1 h
    obtain ⟨⟨ls, hls⟩, ks, hks⟩ := ih hrest
    refine ⟨⟨is ++ ls, ?_⟩, ks, ?_⟩
    · exact Procedure.codes_cons_eq_ok_iff.2 ⟨is, his, ls, hls, rfl⟩
    · rw [Procedure.length_code his, Nat.add_assoc] at hks
      exact hks

end

end Codegen

open Codegen

/-- The walk over the program comes to the block in the state. -/
inductive Program.Opens (p : Program) : Block → State → Prop
  | main : p.Opens p.block State.initial
  /-- In a block, past its constants and variables and the procedures `qs`. -/
  | inner {consts : List ConstDecl} {vars : List Ident} {qs ps : List Procedure}
      {body : Statement} {x : Ident} {b : Block} {n k : Nat} {s s₁ s₂ s₃ : State} :
      p.Opens (.mk consts vars (qs ++ .mk x b :: ps) body) s →
      prologue consts vars s = .ok n s₁ → procedures qs s₁ = .ok () s₂ →
      header x s₂ = .ok k s₃ → p.Opens b s₃

/-- The walk over the program comes to the phrase in the state. -/
inductive Program.Visits (p : Program) : Phrase → State → Prop
  /-- In a block, past its declarations. -/
  | body {consts : List ConstDecl} {vars : List Ident} {ps : List Procedure} {body : Statement}
      {n : Nat} {s s₁ s₂ : State} :
      p.Opens (.mk consts vars ps body) s → prologue consts vars s = .ok n s₁ →
      procedures ps s₁ = .ok () s₂ → p.Visits (.statement body) s₂
  | step {a b : Phrase} {s s' : State} : p.Visits a s → a.Leads s b s' → p.Visits b s'

/-! ## The walk comes there -/

namespace Program

variable {p : Program} {b : Block} {a : Phrase} {e : CodegenError} {s s' : State}

open Phrase

/-- The procedures in front of one are walked over before it. -/
theorem procedures_error {qs ps : List Procedure} {q : Procedure} {s₁ : State}
    (hqs : procedures qs s = .ok () s₁) (hq : procedure q s₁ = .error e s') :
    procedures (qs ++ q :: ps) s = .error e s' := by
  induction qs generalizing s with
  | nil =>
    cases hqs
    exact bind_error hq
  | cons r qs ih =>
    cases hr : procedure r s with
    | ok u s₂ =>
      have hrest : procedures qs s₂ = .ok () s₁ := (bind_ok hr).symm.trans hqs
      exact (bind_ok hr).trans (ih hrest)
    | error e' s₂ => cases (bind_error hr).symm.trans hqs

theorem Opens.error (h : p.Opens b s) (hb : Codegen.block b s = .error e s') :
    Codegen.block p.block State.initial = .error e s' := by
  induction h with
  | main => exact hb
  | @inner consts vars qs ps body x b _ _ _ _ _ _ _ hpro hprocs hhead ih =>
    have hproc := procedure_eq x b ▸ (bind_ok hhead).trans (bind_error hb)
    refine ih ?_
    rw [block_eq]
    exact (bind_ok hpro).trans (bind_error (procedures_error hprocs hproc))

/-- **What a phrase visited fails with, the whole walk fails with**, so that these are points the
    walk does come to. -/
theorem Visits.error (h : p.Visits a s) (ha : a.walk s = .error e s') :
    p.compile = (.error e, s'.warnings) := by
  induction h with
  | @body consts vars ps body _ _ _ _ hopens hpro hprocs =>
    have hwalk := hopens.error (block_eq consts vars ps body ▸
      (bind_ok hpro).trans ((bind_ok hprocs).trans (bind_error ha)))
    unfold compile EStateM.run
    rw [hwalk]
  | step _ hleads ih => exact ih (hleads.error ha)

end Program

/-! ## Where the points are -/

/-- The subprograms of procedures, each with those in front of it. -/
theorem Subprogram.mem_declared_iff {env : Environment} {sc : Scope} {a : Nat}
    {ps : List Procedure} {t : Subprogram} :
    t ∈ declared env sc a ps ↔ ∃ qs q rs, ps = qs ++ q :: rs ∧
      t = ⟨some q.name, a + Procedure.codeSizes qs + 3,
        env.nest ((qs.foldl Scope.declareProcedure sc).declareProcedure q), q.block⟩ := by
  induction ps generalizing sc a with
  | nil => simp [declared]
  | cons p ps ih =>
    simp only [declared, List.mem_cons, ih]
    constructor
    · rintro (rfl | ⟨qs, q, rs, rfl, rfl⟩)
      · exact ⟨[], p, ps, rfl, rfl⟩
      · refine ⟨p :: qs, q, rs, rfl, ?_⟩
        simp only [Procedure.codeSizes, List.foldl_cons, Nat.add_assoc]
    · rintro ⟨qs, q, rs, heq, rfl⟩
      cases qs with
      | nil =>
        cases heq
        exact Or.inl rfl
      | cons r qs =>
        cases heq
        refine Or.inr ⟨qs, q, rs, rfl, ?_⟩
        simp only [Procedure.codeSizes, List.foldl_cons, Nat.add_assoc]

namespace Program

variable {p : Program} {b : Block} {a : Phrase} {s : State} {code : Array Instruction}
  {sub : Subprogram} {outer : List Subprogram}

/-- **Every block is opened at its place**, with the scopes around it. -/
theorem Opens.located (h : p.Opens b s) : ∃ sub outer, p.Nested (sub :: outer) ∧
    sub.block = b ∧ s.env = sub.outer ∧ s.next = sub.entry := by
  induction h with
  | main => exact ⟨p.main, [], .main, rfl, rfl, rfl⟩
  | @inner consts vars qs ps body x b _ _ _ _ _ _ _ hpro hprocs hhead ih =>
    obtain ⟨sub, outer, hn, hb, henv, hnext⟩ := ih
    obtain ⟨he₁, hn₁⟩ := prologue_ok hpro
    obtain ⟨he₂, hn₂⟩ := procedures_ok he₁ hprocs
    obtain ⟨he₃, hn₃⟩ := header_ok he₂ hhead
    rw [henv] at he₃
    refine ⟨⟨some x, _, _, b⟩, sub :: outer, .inner hn ?_, rfl, he₃, hn₃⟩
    unfold Subprogram.inner Subprogram.proceduresStart
    rw [hb]
    refine Subprogram.mem_declared_iff.2 ⟨qs, .mk x b, ps, rfl, ?_⟩
    rw [hn₂, hn₁, hnext]
    rfl

/-- The phrase belongs to the statement part of the innermost of the subprograms, and the walk comes
    to it at its place and with the scopes open there. -/
structure Within (p : Program) (sub : Subprogram) (outer : List Subprogram) (a : Phrase)
    (s : State) : Prop where
  nested : p.Nested (sub :: outer)
  env : s.env = sub.scopes
  idents : ∀ x ∈ a.idents, x ∈ sub.block.body.idents
  ports : a.Ports sub.scopes
  piece : a.PieceOf sub.scopes s.next (.statement sub.block.body) sub.bodyStart

/-- **Every phrase is visited within a subprogram.** -/
theorem Visits.within (h : p.Visits a s) : ∃ sub outer, Within p sub outer a s := by
  induction h with
  | @body consts vars ps body _ _ _ s₂ hopens hpro hprocs =>
    obtain ⟨sub, outer, hn, hb, henv, hnext⟩ := hopens.located
    obtain ⟨he₁, hn₁⟩ := prologue_ok hpro
    obtain ⟨he₂, hn₂⟩ := procedures_ok he₁ hprocs
    have hbody : sub.block.body = body := by rw [hb]; rfl
    refine ⟨sub, outer, hn, ?_, ?_, trivial, ?_⟩
    · rw [he₂, henv]
      unfold Subprogram.scopes
      rw [hb]
      rfl
    · rw [hbody]
      exact fun x hx => hx
    · have hstart : s₂.next = sub.bodyStart := by
        rw [hn₂, hn₁, hnext, Subprogram.bodyStart, Subprogram.proceduresStart, hb]
        rfl
      rw [hbody, hstart]
      exact .whole rfl
  | step _ hleads ih =>
    obtain ⟨sub, outer, hw⟩ := ih
    obtain ⟨he, hpiece⟩ := hleads.piece
    rw [hw.env] at hpiece
    refine ⟨sub, outer, hw.nested, he.trans hw.env, ?_, ?_, hpiece.trans hw.piece⟩
    · exact fun x hx => hw.idents x (hleads.idents_subset x hx)
    · have hports := hw.ports
      rw [← hw.env] at hports ⊢
      exact hleads.ports hports

/-! ## All blocks are opened -/

section

variable (hc : p.compile.1 = .ok code)

include hc

/-- The walk gets past the constants and variables of a block that it opens. -/
theorem Nested.enters (hn : p.Nested (sub :: outer)) (henv : s.env = sub.outer)
    (hnext : s.next = sub.entry) : ∃ n s', prologue sub.block.consts sub.block.vars s = .ok n s' ∧
      s'.env = sub.outer.nest sub.block.dataScope ∧ s'.next = sub.proceduresStart := by
  obtain ⟨cs, hcs, -⟩ := (hn.placed hc sub (List.mem_cons_self ..)).consts
  obtain ⟨n, s', hpro⟩ := prologue_of_code hcs sub.block.vars s
  obtain ⟨he, hnext'⟩ := prologue_ok hpro
  refine ⟨n, s', hpro, ?_, ?_⟩
  · rw [he, henv]
    rfl
  · rw [hnext', hnext]
    rfl

/-- **All blocks are opened** by a walk that succeeds. -/
theorem Nested.opens (hn : p.Nested (sub :: outer)) :
    ∃ s, p.Opens sub.block s ∧ s.env = sub.outer ∧ s.next = sub.entry := by
  generalize hpath : sub :: outer = path at hn
  induction hn generalizing sub outer with
  | main =>
    cases hpath
    exact ⟨State.initial, .main, rfl, rfl⟩
  | @inner u t path hn ht ih =>
    cases hpath
    obtain ⟨s, hopens, henv, hnext⟩ := ih rfl
    obtain ⟨n, s₁, hpro, he₁, hn₁⟩ := hn.enters hc henv hnext
    obtain ⟨js, hjs, -⟩ := (hn.placed hc u (List.mem_cons_self ..)).procedures
    -- Up to its own, the procedures of the block have code, so the walk gets past them.
    obtain ⟨qs, ⟨x, b⟩, rs, hps, rfl⟩ := Subprogram.mem_declared_iff.1 ht
    rw [hps, ← hn₁] at hjs
    obtain ⟨⟨is, his⟩, ks, hks⟩ := codes_split hjs
    obtain ⟨s₂, hprocs⟩ := procedures_of_code he₁ his
    obtain ⟨he₂, hn₂⟩ := procedures_ok he₁ hprocs
    rw [← hn₂] at hks
    obtain ⟨k, s₃, hhead⟩ := header_of_code he₂ hks
    obtain ⟨he₃, hn₃⟩ := header_ok he₂ hhead
    refine ⟨s₃, ?_, he₃, ?_⟩
    · cases hb : u.block with
      | mk consts vars ps body =>
        rw [hb] at hopens hpro hps
        cases hps
        exact .inner hopens hpro hprocs hhead
    · rw [hn₃, hn₂, hn₁]

/-- **All statement parts are visited** by a walk that succeeds. -/
theorem Nested.visits (hn : p.Nested (sub :: outer)) :
    ∃ s, p.Visits (.statement sub.block.body) s ∧ s.env = sub.scopes ∧
      s.next = sub.bodyStart := by
  obtain ⟨s, hopens, henv, hnext⟩ := hn.opens hc
  obtain ⟨n, s₁, hpro, he₁, hn₁⟩ := hn.enters hc henv hnext
  obtain ⟨js, hjs, -⟩ := (hn.placed hc sub (List.mem_cons_self ..)).procedures
  rw [← hn₁] at hjs
  obtain ⟨s₂, hprocs⟩ := procedures_of_code he₁ hjs
  obtain ⟨he₂, hn₂⟩ := procedures_ok he₁ hprocs
  refine ⟨s₂, ?_, he₂, ?_⟩
  · cases hb : sub.block with
    | mk consts vars ps body =>
      rw [hb] at hopens hpro hprocs
      exact .body hopens hpro hprocs
  · rw [hn₂, hn₁]
    rfl

end

end Program

end PL0
