import PL0.Proofs.Codegen.Verifier
import PL0.Proofs.Codegen.Visits
import PL0.Proofs.Grammar.Identifiers

/-!
# `Codegen.Ports` — texts neither name nor hide the channels

The channels are found like variables, by their names, in the scope below all others. In a program
whose identifiers are spelled otherwise nothing else is found there and no declaration gets in
between, so a level as great as the number of scopes marks the accesses of the channels.

Main statement: `Program.hidden_of_scan`. In the walk over a program that was read from a text, no
identifier leads to the base scope and the channels are where they should be (`Program.Hidden`);
in its code exactly the loads of `read` and the stores of `write` have the lexical depth of their
subprogram as level.
-/

namespace PL0

open Codegen

namespace Program

variable {p : Program} {a : Phrase} {s : State} {code : Array Instruction} {sub : Subprogram}
  {outer : List Subprogram} {x : Nat} {i : Instruction}

/-! ## The accesses of the channels -/

/-- The walk emits at this address the load of an element that is read. -/
def Reads (p : Program) (x : Nat) : Prop := ∃ a s, p.Visits (.input a) s ∧ s.next = x

/-- The walk emits at this address the store of an element that is written. -/
def Writes (p : Program) (x : Nat) : Prop := ∃ a s, p.Visits (.output a) s ∧ s.next = x

/-- **The text has no access to the base scope.** -/
structure Hidden (p : Program) : Prop where
  /-- The scope below all others is that of the channels. -/
  base : ∀ a s, p.Visits a s → s.env.base = Scope.channels
  /-- No identifier leads there. -/
  uses : ∀ x s, p.Visits (.use x) s →
    ∀ a, s.env.resolve x.name = some a → a.level < s.env.depth
  /-- At a `read` statement the input channel is found there, in slot 0. -/
  reads : ∀ xs s, p.Visits (.statement (.read xs)) s →
    ∃ a, s.env.resolve readChannel = some a ∧ a.level = s.env.depth ∧ a.symbol.slot = 0
  /-- At a `write` statement the output channel is found there, in slot 1. -/
  writes : ∀ es s, p.Visits (.statement (.write es)) s →
    ∃ a, s.env.resolve writeChannel = some a ∧ a.level = s.env.depth ∧ a.symbol.slot = 1
  /-- What reads loads from the input channel, at the lexical depth of its subprogram. -/
  loads : ∀ code, p.compile.1 = .ok code → ∀ x, p.Reads x →
    ∃ sub outer, p.Nested (sub :: outer) ∧ sub.Owns x ∧
      code[x]? = some (.make .lod (outer.length + 1) 0)
  /-- What writes stores to the output channel, at the lexical depth of its subprogram. -/
  stores : ∀ code, p.compile.1 = .ok code → ∀ x, p.Writes x →
    ∃ sub outer, p.Nested (sub :: outer) ∧ sub.Owns x ∧
      code[x]? = some (.make .sto (outer.length + 1) 1)
  /-- Everything else stays above the base scope. -/
  others : ∀ code, p.compile.1 = .ok code → ∀ sub outer, p.Nested (sub :: outer) →
    ∀ x i, sub.Owns x → code[x]? = some i → i.accesses → ¬ p.Reads x → ¬ p.Writes x →
      i.level < outer.length + 1

/-! ## Lookups -/

/-- As many scopes are open as subprograms are nested. -/
theorem Within.depth_eq (hw : p.Within sub outer a s) : s.env.depth = outer.length + 1 := by
  rw [hw.env]
  exact hw.nested.frames.2

/-- **An identifier leads to a scope above the base**, wherever the walk meets it. -/
theorem Visits.level_lt (h : p.Visits a s) (hp : p.PortFree) {x : Ident} (hx : x ∈ a.idents)
    {b : Address} (hb : s.env.resolve x.name = some b) : b.level < s.env.depth := by
  obtain ⟨sub, outer, hw⟩ := h.within
  have hmem := Block.mem_idents_of_body (hw.idents x hx)
  have hord := hp.nested hw.nested sub (List.mem_cons_self ..) x hmem
  rw [hw.env] at hb
  obtain ⟨t, ht, -, -⟩ := hw.nested.resolve_lt hord hb
  rw [hw.depth_eq]
  exact (List.getElem?_eq_some_iff.1 ht).1

theorem Visits.base_eq (h : p.Visits a s) : s.env.base = Scope.channels := by
  obtain ⟨sub, outer, hw⟩ := h.within
  rw [hw.env]
  exact (hw.nested.scopes sub rfl).1

/-- **Both channels are found in the base scope**, wherever the walk is. -/
theorem Visits.exists_channel (h : p.Visits a s) (hp : p.PortFree) {name : String} {sym : Symbol}
    (hname : Scope.channels.get? name = some sym) :
    ∃ b, s.env.resolve name = some b ∧ b.level = s.env.depth ∧ b.symbol.slot = sym.slot := by
  obtain ⟨sub, outer, hw⟩ := h.within
  rw [hw.depth_eq, hw.env]
  obtain ⟨b, hb⟩ := hw.nested.exists_channel hname
  exact ⟨b, hb, hw.nested.resolve_channel hp hname hb⟩

/-! ## What is emitted for the elements -/

/-- A phrase of one instruction is emitted where the walk comes to it. -/
theorem Within.emits (hw : p.Within sub outer a s) (hc : p.compile.1 = .ok code)
    (ha : ∀ is, a.code sub.scopes s.next = .ok is → is = [i]) :
    sub.Owns s.next ∧ code[s.next]? = some i := by
  obtain ⟨bs, hbs, hloc⟩ := (hw.nested.placed hc sub (List.mem_cons_self ..)).body
  obtain ⟨front, is, back, heq, his, hnext⟩ := hw.piece bs hbs
  cases ha is his
  have hlen : bs.length = front.length + 1 + back.length := by
    rw [heq]
    simp only [List.length_append, List.length_singleton]
  have hlast := Statement.length_code hbs
  have hstop : sub.last = sub.bodyStart + sub.block.body.codeSize := rfl
  refine ⟨Subprogram.owns_body (by omega) (by omega), ?_⟩
  rw [heq, List.append_assoc] at hloc
  rw [hnext]
  exact hloc.next

/-- The access of a channel is emitted in a subprogram, with its lexical depth as level. -/
theorem Visits.emits_access (h : p.Visits a s) (hp : p.PortFree) (hc : p.compile.1 = .ok code)
    {op : OpCode} {b : Address} {name : String} {sym : Symbol}
    (hname : Scope.channels.get? name = some sym)
    (hb : ∀ env, a.Ports env → env.resolve name = some b)
    (ha : ∀ env y, a.code env y = accessCode op b) :
    ∃ sub outer, p.Nested (sub :: outer) ∧ sub.Owns s.next ∧
      code[s.next]? = some (.make op (outer.length + 1) sym.slot) := by
  obtain ⟨sub, outer, hw⟩ := h.within
  obtain ⟨hlevel, hslot⟩ := hw.nested.resolve_channel hp hname (hb _ hw.ports)
  refine ⟨sub, outer, hw.nested, hw.emits hc fun is his => ?_⟩
  rw [ha, accessCode_eq_ok_iff] at his
  rw [his.1, hlevel, hslot]
  rfl

theorem Reads.emitted (h : p.Reads x) (hp : p.PortFree) (hc : p.compile.1 = .ok code) :
    ∃ sub outer, p.Nested (sub :: outer) ∧ sub.Owns x ∧
      code[x]? = some (.make .lod (outer.length + 1) 0) := by
  obtain ⟨b, s, hv, rfl⟩ := h
  exact hv.emits_access hp hc channels_readChannel (fun _ hb => hb) fun _ _ => rfl

theorem Writes.emitted (h : p.Writes x) (hp : p.PortFree) (hc : p.compile.1 = .ok code) :
    ∃ sub outer, p.Nested (sub :: outer) ∧ sub.Owns x ∧
      code[x]? = some (.make .sto (outer.length + 1) 1) := by
  obtain ⟨b, s, hv, rfl⟩ := h
  exact hv.emits_access hp hc channels_writeChannel (fun _ hb => hb) fun _ _ => rfl

/-! ## Everything else -/

end Program

/-- The instruction stays above the level, if it has one. -/
def Instruction.Below (d : Nat) (i : Instruction) : Prop := i.accesses → i.level < d

namespace Instruction

variable {d : Nat}

theorem below_access {level : Nat} (h : level < d) (op : OpCode) (n : Int) :
    (make op level n).Below d := fun _ => h

theorem below_literal (n : Int) : (make .lit 0 n).Below d := by
  rintro (h | h | h) <;> cases h

theorem below_operator (op : Operator) : (apply op).Below d := by
  rintro (h | h | h) <;> cases h

theorem below_jump {op : OpCode} (hop : op = .jmp ∨ op = .jpc) (n : Int) :
    (make op 0 n).Below d := by
  rcases hop with rfl | rfl <;> rintro (h | h | h) <;> cases h

end Instruction

namespace Program

variable {p : Program} {a : Phrase} {s : State} {code : Array Instruction} {sub : Subprogram}
  {outer : List Subprogram} {d x : Nat} {i : Instruction} {is js : List Instruction}

/-- The instructions, the first of them at address `x`, stay above the level unless they belong to
    an element that is read or written. -/
def Covers (p : Program) (d x : Nat) (is : List Instruction) : Prop :=
  ∀ k i, is[k]? = some i → i.Below d ∨ p.Reads (x + k) ∨ p.Writes (x + k)

theorem Covers.of_below (h : ∀ i ∈ is, i.Below d) : p.Covers d x is :=
  fun _ _ hi => .inl (h _ (List.mem_of_getElem? hi))

theorem Covers.single (h : i.Below d ∨ p.Reads x ∨ p.Writes x) : p.Covers d x [i] := by
  intro k j hj
  cases k with
  | zero =>
    cases hj
    exact h
  | succ k => cases hj

theorem Covers.append (his : p.Covers d x is) (hjs : p.Covers d (x + is.length) js) :
    p.Covers d x (is ++ js) := by
  intro k i hi
  by_cases hk : k < is.length
  · rw [List.getElem?_append_left hk] at hi
    exact his k i hi
  · rw [List.getElem?_append_right (Nat.le_of_not_lt hk)] at hi
    have hcov := hjs _ i hi
    have haddr : x + is.length + (k - is.length) = x + k := by omega
    rwa [haddr] at hcov

/-- A loop or a branch: the test, the `JPC`, the statement, and what is behind it. -/
theorem Covers.guarded {test bs back : List Instruction} (n : Int)
    (htest : ∀ i ∈ test, i.Below d) (hbody : p.Covers d (x + test.length + 1) bs)
    (hback : ∀ i ∈ back, i.Below d) :
    p.Covers d x (test ++ .make .jpc 0 n :: (bs ++ back)) := by
  have hjump : p.Covers d (x + test.length) [.make .jpc 0 n] :=
    .single (.inl (Instruction.below_jump (.inr rfl) n))
  exact (of_below htest).append (hjump.append (hbody.append (of_below hback)))

/-- What expressions are made of stays above the base scope. -/
theorem Visits.exprProperty (h : p.Visits a s) (hp : p.PortFree) :
    ExprProperty s.env a.idents (Instruction.Below s.env.depth) where
  literal := Instruction.below_literal
  operator := Instruction.below_operator
  load := fun _ hx _ hb => Instruction.below_access (h.level_lt hp hx hb) _ _

theorem Visits.below_expr {e : Expr} (h : p.Visits (.expr e) s) (hp : p.PortFree)
    (his : e.code s.env = .ok is) : ∀ i ∈ is, i.Below s.env.depth :=
  Expr.forall_code (h.exprProperty hp) his

theorem Visits.below_condition {c : Condition} (h : p.Visits (.condition c) s) (hp : p.PortFree)
    (his : c.code s.env = .ok is) : ∀ i ∈ is, i.Below s.env.depth :=
  Condition.forall_code (h.exprProperty hp) his

/-- An element that is read: the load from the channel is visited, the store is an identifier's. -/
theorem Visits.covers_target {input : Address} {y : Ident} {ys : List Ident}
    (h : p.Visits (.targets input (y :: ys)) s) (hp : p.PortFree)
    (his : readCode s.env input y = .ok is) : p.Covers s.env.depth s.next is := by
  obtain ⟨b, hb, -, -, rfl⟩ := readCode_eq_ok_iff.1 his
  obtain ⟨s', hwarn, hnext⟩ : ∃ s', (if b.symbol.kind ≠ .var then warn (.readInto y) else pure () :
      Gen Unit) s = .ok () s' ∧ s'.next = s.next := by
    by_cases hkind : b.symbol.kind ≠ .var
    · rw [if_pos hkind]
      exact ⟨_, rfl, rfl⟩
    · rw [if_neg hkind]
      exact ⟨_, rfl, rfl⟩
  have hreads : p.Reads s.next := ⟨input, s', h.step (.input (Phrase.resolve_of_eq hb) hwarn), hnext⟩
  have hload : p.Covers s.env.depth s.next [.make .lod input.level input.symbol.slot] :=
    .single (.inr (.inl hreads))
  have hlt := h.level_lt hp (List.mem_cons_self ..) hb
  exact hload.append (.single (.inl (Instruction.below_access hlt _ _)))

/-- An element that is written: the store to the channel is visited. -/
theorem Visits.covers_value {output : Address} {e : Expr} {es : List Expr}
    (h : p.Visits (.values output (e :: es)) s) (hp : p.PortFree)
    (his : writeCode s.env output e = .ok is) : p.Covers s.env.depth s.next is := by
  obtain ⟨ls, hls, -, rfl⟩ := writeCode_eq_ok_iff.1 his
  obtain ⟨s', hw, hc, -⟩ := Phrase.walk_of_code (.expr e) hls
  have hwrites : p.Writes (s.next + ls.length) :=
    ⟨output, s', h.step (.output hw), Phrase.next_of_append hc⟩
  exact (Covers.of_below ((h.step .value).below_expr hp hls)).append (.single (.inr (.inr hwrites)))

/-- Elements are covered one after the other: `g` is the code of one, the walk over it leads to the
    elements behind it, and the first of those that are left is covered. -/
theorem Visits.covers_elements {α : Type} {phrase : List α → Phrase} {f : α → Gen Unit}
    {g : Environment → α → Except CodegenError (List Instruction)}
    (hwalks : ∀ s y, Walks s.code (f y s) ((fun js => ((), [] ++ js, s.env)) <$> g s.env y))
    (hnext : ∀ y ys s s', f y s = .ok () s' → (phrase (y :: ys)).Leads s (phrase ys) s')
    (hfirst : ∀ y ys s is, p.Visits (phrase (y :: ys)) s → g s.env y = .ok is →
      p.Covers s.env.depth s.next is)
    {ys : List α} (h : p.Visits (phrase ys) s) (hjs : collect (g s.env) ys = .ok js) :
    p.Covers s.env.depth s.next js := by
  induction ys generalizing s js with
  | nil =>
    cases pure_eq_ok_iff.1 hjs
    exact .of_below (List.forall_mem_nil _)
  | cons y ys ih =>
    obtain ⟨is, his, ks, hks, rfl⟩ := collect_cons_eq_ok_iff.1 hjs
    obtain ⟨s', hw, hc, he⟩ := (hwalks s y).to_ok his
    dsimp only at he
    rw [← he] at hks
    have hrest := ih (h.step (hnext y ys s s' hw)) hks
    rw [he, Phrase.next_of_append hc] at hrest
    exact (hfirst y ys s is h his).append hrest

theorem Visits.covers_targets {input : Address} {ys : List Ident}
    (h : p.Visits (.targets input ys) s) (hp : p.PortFree)
    (hjs : collect (readCode s.env input) ys = .ok js) : p.Covers s.env.depth s.next js :=
  covers_elements (g := fun env => readCode env input)
    (fun s y => walks_readTarget input y (Phrase.append_nil s) rfl)
    (fun _ _ _ _ hw => .nextTarget hw) (fun _ _ _ _ hv his => hv.covers_target hp his) h hjs

theorem Visits.covers_values {output : Address} {es : List Expr}
    (h : p.Visits (.values output es) s) (hp : p.PortFree)
    (hjs : collect (writeCode s.env output) es = .ok js) : p.Covers s.env.depth s.next js :=
  covers_elements (g := fun env => writeCode env output)
    (fun s e => walks_writeValue output e (Phrase.append_nil s) rfl)
    (fun _ _ _ _ hw => .nextValue hw) (fun _ _ _ _ hv his => hv.covers_value hp his) h hjs

/-- The walk gets past a test that has code, and past the `JPC` behind it. -/
theorem exists_behind_test {c : Condition} {test : List Instruction}
    (ht : c.code s.env = .ok test) : ∃ n s₁ s', condition c s = .ok () s₁ ∧
      emit (.make .jpc 0 0) s₁ = .ok n s' ∧ s'.env = s.env ∧
      s'.next = s.next + test.length + 1 := by
  obtain ⟨s₁, hw, -⟩ := Phrase.walk_of_code (.condition c) ht
  obtain ⟨n, s', hem⟩ : ∃ n s', emit (.make .jpc 0 0) s₁ = .ok n s' := ⟨_, _, rfl⟩
  obtain ⟨test', ht', he, hnext⟩ := Phrase.behind_test hw hem
  cases ht.symm.trans ht'
  exact ⟨n, s₁, s', hw, hem, he, hnext⟩

mutual

/-- **A statement stays above the base scope**, its elements that are read or written apart. -/
theorem Visits.covers_statement {st : Statement} {s : State} {js : List Instruction}
    (h : p.Visits (.statement st) s) (hp : p.PortFree) (hjs : st.code s.env s.next = .ok js) :
    p.Covers s.env.depth s.next js := by
  cases st with
  | empty =>
    cases pure_eq_ok_iff.1 hjs
    exact .of_below (List.forall_mem_nil _)
  | block body =>
    have hbody : Statement.codes s.env s.next body = .ok js := hjs
    exact (h.step .body).covers_statements hp hbody
  | read targets =>
    obtain ⟨input, hin, hjs⟩ := Statement.code_read_eq_ok_iff.1 hjs
    exact (h.step (.read (Phrase.channel_of_eq hin))).covers_targets hp hjs
  | write values =>
    obtain ⟨output, hout, hjs⟩ := Statement.code_write_eq_ok_iff.1 hjs
    exact (h.step (.write (Phrase.channel_of_eq hout))).covers_values hp hjs
  | call x =>
    obtain ⟨b, hb, rfl, -⟩ := Statement.code_call_eq_ok_iff.1 hjs
    have hlt := h.level_lt hp (List.mem_singleton_self x) hb
    exact .single (.inl (Instruction.below_access hlt _ _))
  | whileDo c body =>
    obtain ⟨test, ht, bs, hbs, -, -, rfl⟩ := Statement.code_whileDo_eq_ok_iff.1 hjs
    obtain ⟨n, s₁, s', hw, hem, he, hnext⟩ := exists_behind_test ht
    rw [← he, ← hnext] at hbs
    have hbody := (h.step (.loopBody hw hem)).covers_statement hp hbs
    rw [he, hnext] at hbody
    refine .guarded _ ((h.step .loopTest).below_condition hp ht) hbody ?_
    rw [List.forall_mem_singleton]
    exact Instruction.below_jump (.inl rfl) _
  | assign x e =>
    obtain ⟨es, hes, b, hb, -, rfl⟩ := Statement.code_assign_eq_ok_iff.1 hjs
    have hlt := h.level_lt hp (List.mem_append_right _ (List.mem_singleton_self x)) hb
    refine (Covers.of_below ((h.step .assigned).below_expr hp hes)).append ?_
    exact .single (.inl (Instruction.below_access hlt _ _))
  | ifThen c body =>
    obtain ⟨test, ht, bs, hbs, -, rfl⟩ := Statement.code_ifThen_eq_ok_iff.1 hjs
    obtain ⟨n, s₁, s', hw, hem, he, hnext⟩ := exists_behind_test ht
    rw [← he, ← hnext] at hbs
    have hbody := (h.step (.branchBody hw hem)).covers_statement hp hbs
    rw [he, hnext] at hbody
    rw [← List.append_nil bs]
    exact .guarded _ ((h.step .branchTest).below_condition hp ht) hbody (List.forall_mem_nil _)

theorem Visits.covers_statements {ss : List Statement} {s : State} {js : List Instruction}
    (h : p.Visits (.statements ss) s) (hp : p.PortFree)
    (hjs : Statement.codes s.env s.next ss = .ok js) : p.Covers s.env.depth s.next js := by
  cases ss with
  | nil =>
    cases pure_eq_ok_iff.1 hjs
    exact .of_below (List.forall_mem_nil _)
  | cons st ss =>
    obtain ⟨is, his, ks, hks, rfl⟩ := Statement.codes_cons_eq_ok_iff.1 hjs
    obtain ⟨s', hw, hc, he⟩ := Phrase.walk_of_code (.statement st) his
    have hnext := Phrase.next_of_append hc
    rw [← he, ← hnext] at hks
    have hrest := (h.step (.rest hw)).covers_statements hp hks
    rw [he, hnext] at hrest
    exact ((h.step .first).covers_statement hp his).append hrest

end

/-- **What is not emitted for an element that is read or written stays above the base scope.** -/
theorem Nested.covered (hn : p.Nested (sub :: outer)) (hp : p.PortFree)
    (hc : p.compile.1 = .ok code) (hx : sub.Owns x) (hi : code[x]? = some i) :
    i.Below (outer.length + 1) ∨ p.Reads x ∨ p.Writes x := by
  cases hn.site hc hx hi with
  | opening _ => exact .inl (by rintro (h | h | h) <;> cases h)
  | literal n _ _ => exact .inl (Instruction.below_literal n)
  | define _ _ _ => exact .inl (Instruction.below_access (Nat.succ_pos _) _ _)
  | skip _ _ => exact .inl (Instruction.below_jump (.inl rfl) _)
  | closing _ => exact .inl (by rintro (h | h | h) <;> cases h)
  | body hbs hlo _ hget =>
    obtain ⟨s, hv, henv, hnext⟩ := hn.visits hc
    rw [← henv, ← hnext] at hbs
    have hcov := hv.covers_statement hp hbs _ i hget
    have haddr : sub.bodyStart + (x - sub.bodyStart) = x := Nat.add_sub_cancel' hlo
    have hdepth : sub.scopes.depth = outer.length + 1 := hn.frames.2
    rwa [henv, hnext, haddr, hdepth] at hcov

/-! ## Texts -/

/-- In a program without port names the channels are out of reach. -/
theorem PortFree.hidden (hp : p.PortFree) : p.Hidden where
  base _ _ h := h.base_eq
  uses _ _ h _ hb := h.level_lt hp (List.mem_singleton_self _) hb
  reads _ _ h := h.exists_channel hp channels_readChannel
  writes _ _ h := h.exists_channel hp channels_writeChannel
  loads _ hc _ h := h.emitted hp hc
  stores _ hc _ h := h.emitted hp hc
  others _ hc sub outer hn x i hx hi hacc hr hw := by
    rcases hn.covered hp hc hx hi with h | h | h
    · exact h hacc
    · exact absurd h hr
    · exact absurd h hw

/-- **The text of a program can neither name the channels nor hide them.** -/
theorem hidden_of_scan (text : String) (ts : List Token) (p : Program)
    (hscan : Lexer.scan text = .ok ts) (hread : ofTokens ts = .ok p) : p.Hidden :=
  (portFree_of_scan hscan hread).hidden

/-- The program `procedure p; var x; begin read(x); write(x + 1) end; call p .` -/
def successor : Program :=
  ⟨.mk [] [] [.mk ⟨"p", 10⟩ (.mk [] [⟨"x", 17⟩] [] (.block [
    .read [⟨"x", 31⟩],
    .write [.mk none (.join (.single (.single (.ident ⟨"x", 41⟩))) .add
      (.single (.number ⟨1, 45⟩)))]]))]
    (.call ⟨"p", 58⟩)⟩

/-- The procedure of `successor` accesses the channels, two scopes outward, and nothing else does. -/
theorem successor_hidden :
    (∃ ts, Lexer.scan "procedure p; var x; begin read(x); write(x + 1) end; call p ." = .ok ts ∧
      ofTokens ts = .ok successor) ∧ successor.Hidden ∧
    (∃ code, successor.compile.1 = .ok code ∧ code[5]? = some (.make .lod 2 0) ∧
      code[10]? = some (.make .sto 2 1)) ∧ successor.Reads 5 ∧ successor.Writes 10 := by
  obtain ⟨ts, hscan, hread⟩ : ∃ ts,
      Lexer.scan "procedure p; var x; begin read(x); write(x + 1) end; call p ." = .ok ts ∧
        ofTokens ts = .ok successor := ⟨_, by cbv, by cbv⟩
  refine ⟨⟨ts, hscan, hread⟩, hidden_of_scan _ ts _ hscan hread, ⟨_, by cbv, rfl, rfl⟩, ?_, ?_⟩
  · have hopens := @Opens.inner successor _ _ [] _ _ _ _ _ _ _ _ _ _ .main rfl rfl rfl
    have hread := (((Visits.body hopens rfl rfl).step .body).step .first).step (.read rfl)
    exact ⟨_, _, hread.step (.input rfl rfl), rfl⟩
  · have hopens := @Opens.inner successor _ _ [] _ _ _ _ _ _ _ _ _ _ .main rfl rfl rfl
    have hbody := (Visits.body hopens rfl rfl).step .body
    have hwrite := ((hbody.step (.rest rfl)).step .first).step (.write rfl)
    exact ⟨_, _, hwrite.step (.output rfl), rfl⟩

end Program

end PL0
