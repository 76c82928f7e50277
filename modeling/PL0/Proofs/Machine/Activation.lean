import PL0.Proofs.Codegen.Sites
import PL0.Proofs.Machine.Effect

/-!
# `Machine.Activation` — active calls, operand stack and block depth

A run is followed with the calls that have not returned (`Program.Runs`). As long as every call goes
to a procedure declared under its name where the name leads statically (`Program.Admits`), the
subprogram that control is in, the operand stack and the number of blocks are all determined by the
active calls and the instruction pointer: below the temporaries of the current expression the
operand stack holds the return addresses of the active calls and nothing else, and every call at a
level `l` leaves `l` more blocks than lexical nesting accounts for.

Main statements: `Program.Runs.settled`, the invariant, by one step lemma; `Program.Runs.discipline`
reads it off for every reachable machine. The program `endless` shows blocks and nesting drift apart.
-/

namespace PL0

open Codegen

/-! ## Call statements -/

mutual

/-- The call statements of a statement whose code starts at `a`: the address of each `CAL`, and the
    name called. -/
def Statement.calls (a : Nat) : Statement → List (Nat × Ident)
  | .call x => [(a, x)]
  | .block body => Statement.callsOf a body
  | .whileDo c body => body.calls (a + c.codeSize + 1)
  | .ifThen c body => body.calls (a + c.codeSize + 1)
  | _ => []

def Statement.callsOf (a : Nat) : List Statement → List (Nat × Ident)
  | [] => []
  | s :: ss => s.calls a ++ Statement.callsOf (a + s.codeSize) ss

end

/-- The call statements of the statement part. -/
def Subprogram.calls (s : Subprogram) : List (Nat × Ident) := s.block.body.calls s.bodyStart

theorem getElem?_behind (is js : List Instruction) (i : Instruction) (k : Nat) :
    (is ++ i :: js)[is.length + 1 + k]? = js[k]? := by
  rw [List.append_cons, List.getElem?_append_right (by simp)]
  rw [List.length_append, List.length_singleton, Nat.add_sub_cancel_left]

mutual

/-- The `CAL` of a call statement carries the address that its name leads to. -/
theorem Statement.calls_spec {s : Statement} {env : Environment} {a : Nat} {is : List Instruction}
    (h : s.code env a = .ok is) {site : Nat} {f : Ident} (hf : (site, f) ∈ s.calls a) :
    ∃ k addr, site = a + k ∧ env.resolve f.name = some addr ∧
      is[k]? = some (.make .cal addr.level addr.symbol.slot) := by
  cases s with
  | empty => cases hf
  | block body =>
    have hbody : Statement.codes env a body = .ok is := h
    exact Statement.callsOf_spec hbody hf
  | read targets => cases hf
  | write values => cases hf
  | call x =>
    obtain ⟨addr, ha, rfl, -⟩ := Statement.code_call_eq_ok_iff.1 h
    cases List.mem_singleton.1 hf
    exact ⟨0, addr, rfl, ha, rfl⟩
  | whileDo c body =>
    obtain ⟨test, ht, bs, hb, -, -, rfl⟩ := Statement.code_whileDo_eq_ok_iff.1 h
    unfold Statement.calls at hf
    rw [← Condition.length_code ht] at hf
    obtain ⟨k, addr, rfl, ha, hk⟩ := Statement.calls_spec hb hf
    refine ⟨test.length + 1 + k, addr, by omega, ha, ?_⟩
    -- The body lies behind the test and the `JPC`.
    rw [getElem?_behind, List.getElem?_append_left (List.getElem?_eq_some_iff.1 hk).1, hk]
  | assign x e => cases hf
  | ifThen c body =>
    obtain ⟨test, ht, bs, hb, -, rfl⟩ := Statement.code_ifThen_eq_ok_iff.1 h
    unfold Statement.calls at hf
    rw [← Condition.length_code ht] at hf
    obtain ⟨k, addr, rfl, ha, hk⟩ := Statement.calls_spec hb hf
    refine ⟨test.length + 1 + k, addr, by omega, ha, ?_⟩
    rw [getElem?_behind, hk]

theorem Statement.callsOf_spec {ss : List Statement} {env : Environment} {a : Nat}
    {is : List Instruction} (h : Statement.codes env a ss = .ok is) {site : Nat} {f : Ident}
    (hf : (site, f) ∈ Statement.callsOf a ss) :
    ∃ k addr, site = a + k ∧ env.resolve f.name = some addr ∧
      is[k]? = some (.make .cal addr.level addr.symbol.slot) := by
  cases ss with
  | nil => cases hf
  | cons s ss =>
    obtain ⟨is, his, js, hjs, rfl⟩ := Statement.codes_cons_eq_ok_iff.1 h
    unfold Statement.callsOf at hf
    rcases List.mem_append.1 hf with hf | hf
    · obtain ⟨k, addr, rfl, ha, hk⟩ := Statement.calls_spec his hf
      refine ⟨k, addr, rfl, ha, ?_⟩
      rw [List.getElem?_append_left (List.getElem?_eq_some_iff.1 hk).1, hk]
    · rw [← Statement.length_code his] at hf
      obtain ⟨k, addr, rfl, ha, hk⟩ := Statement.callsOf_spec hjs hf
      refine ⟨is.length + k, addr, by omega, ha, ?_⟩
      rw [List.getElem?_append_right (Nat.le_add_right ..), Nat.add_sub_cancel_left, hk]

end

namespace Program

variable {p : Program} {code : Array Instruction} {s t : Subprogram} {path : List Subprogram}

/-- The address of a call statement is owned by its subprogram and holds its `CAL`. -/
theorem Nested.call_site (hc : p.compile.1 = .ok code) (hn : p.Nested (s :: path)) {site : Nat}
    {f : Ident} (hf : (site, f) ∈ s.calls) :
    s.Owns site ∧ ∃ addr, s.scopes.resolve f.name = some addr ∧
      code[site]? = some (.make .cal addr.level addr.symbol.slot) := by
  obtain ⟨bs, hbs, hl⟩ := (hn.placed hc s (List.mem_cons_self ..)).body
  obtain ⟨k, addr, rfl, ha, hk⟩ := Statement.calls_spec hbs hf
  obtain ⟨hlt, hget⟩ := List.getElem?_eq_some_iff.1 hk
  have hle : s.bodyStart + k ≤ s.last := by
    unfold Subprogram.last
    rw [← Statement.length_code hbs]
    omega
  refine ⟨Subprogram.owns_body (Nat.le_add_right ..) hle, addr, ha, ?_⟩
  rw [hl.get hlt, hget]

end Program

/-! ## Runs with their active calls -/

/-- A call that has not returned: the address of its `CAL`, and its level. -/
structure ActiveCall where
  site : Nat
  level : Nat
deriving DecidableEq, Repr

/-- The return address of a call, right behind its `CAL`. -/
def ActiveCall.returnAddress (c : ActiveCall) : Int := ((c.site + 1 : Nat) : Int)

/-- The active calls, innermost first, once the machine has executed its next instruction. -/
def Machine.track (m : Machine) (calls : List ActiveCall) : List ActiveCall :=
  match m.fetch? with
  | some (x, i) =>
    if i.op = .cal then ⟨x, i.level⟩ :: calls
    else if i.op = .opr ∧ i.offset = .number 0 then calls.tail
    else calls
  | none => calls

namespace Program

/-- The `CAL` at address `site` may go to `target`: it belongs to a call statement, and `target` is
    the entry address of a procedure declared, under the name called, in the scope that this name
    leads to. -/
def Admits (p : Program) (site target : Nat) : Prop :=
  ∃ s outer f addr t u, p.Nested (s :: outer) ∧ (site, f) ∈ s.calls ∧
    s.scopes.resolve f.name = some addr ∧ (s :: outer)[addr.level]? = some t ∧ u ∈ t.inner ∧
    u.name.map Ident.name = some f.name ∧ target = u.entry

/-- **The machines that a run reaches**, with the calls active then: no step of it has faulted, and
    each `CAL` has loaded an entry address that it may go to. -/
inductive Runs (p : Program) (code : Array Instruction) (input : List Int) (sink : Sink) :
    Machine → List ActiveCall → Prop where
  | start : Runs p code input sink (Machine.load code input sink) []
  | step {m m' : Machine} {calls : List ActiveCall} {o : Outcome} :
      Runs p code input sink m calls → m.step = (o, m') → o = .running ∨ o = .halted →
      (∀ x i, m.fetch? = some (x, i) → i.op = .cal →
        ∀ target, m'.ip = some target → p.Admits x target) →
      Runs p code input sink m' (m.track calls)

/-! ## The invariant -/

/-- The nest of subprograms that control is in, given the active calls. -/
inductive Active (p : Program) (code : Array Instruction) :
    List ActiveCall → List Subprogram → Prop where
  | main : Active p code [] [p.main]
  | call {c : ActiveCall} {calls : List ActiveCall} {slot : Int} {s t u : Subprogram}
      {outer path : List Subprogram} :
      Active p code calls (s :: outer) → s.Owns c.site →
      code[c.site]? = some (.make .cal c.level slot) → (s :: outer).drop c.level = t :: path →
      u ∈ t.inner → Active p code (c :: calls) (u :: t :: path)

/-- The return addresses of the active calls, innermost first. -/
def returns (calls : List ActiveCall) : List Int := calls.map ActiveCall.returnAddress

/-- The levels of the active calls, added up. -/
def drift (calls : List ActiveCall) : Nat := (calls.map ActiveCall.level).sum

theorem drift_cons (c : ActiveCall) (calls : List ActiveCall) :
    drift (c :: calls) = c.level + drift calls := rfl

/-- **The invariant.** A halted machine is empty; a running one is in the subprogram that its active
    calls say, with their return addresses under as many temporaries as the code has computed. -/
inductive Settled (p : Program) (code : Array Instruction) :
    Machine → List ActiveCall → Prop where
  | halted {m : Machine} : m.ip = none → m.stack = [] → m.memory.blocks = [] → Settled p code m []
  | running {m : Machine} {calls : List ActiveCall} {x : Nat} {s : Subprogram}
      {outer : List Subprogram} (temps : List Int) :
      m.ip = some x → Active p code calls (s :: outer) → s.Owns x →
      m.stack = temps ++ returns calls → temps.length = heightAt code x →
      m.memory.blocks.length + (if x = s.entry then 1 else 0) = outer.length + 1 + drift calls →
      Settled p code m calls

variable {p : Program} {code : Array Instruction} {s t : Subprogram} {path outer : List Subprogram}
  {calls : List ActiveCall} {m m' : Machine} {x : Nat} {i : Instruction}

theorem Nested.drop_eq (hn : p.Nested path) {n : Nat} (h : path.drop n = t :: outer) :
    p.Nested (t :: outer) := by
  rw [← List.take_append_drop n path, h] at hn
  exact hn.drop

theorem Active.nested (h : Active p code calls path) : p.Nested path := by
  induction h with
  | main => exact .main
  | call _ _ _ hdrop hu ih => exact .inner (ih.drop_eq hdrop) hu

/-- Nothing but `INT` lies at the entry of a subprogram. -/
theorem Nested.ne_entry (hc : p.compile.1 = .ok code) (hn : p.Nested (s :: outer))
    (hi : code[x]? = some i) (hop : i.op ≠ .int) : x ≠ s.entry := by
  rintro rfl
  rw [(hn.placed hc s (List.mem_cons_self ..)).opening] at hi
  cases hi
  exact hop rfl

theorem Nested.eq_entry (hc : p.compile.1 = .ok code) (hn : p.Nested (s :: outer)) (hx : s.Owns x)
    (hi : code[x]? = some i) (hop : i.op = .int) : x = s.entry := by
  cases hn.site hc hx hi with
  | opening h => exact h
  | literal n _ _ => cases hop
  | define _ _ _ => cases hop
  | skip _ _ => cases hop
  | body hbs _ _ hget =>
    exact absurd hop (Statement.plain_code hbs i (List.mem_of_getElem? hget)).op_ne_int
  | closing _ => cases hop

theorem Nested.fetch (hc : p.compile.1 = .ok code) (hn : p.Nested (s :: outer)) (hx : s.Owns x) :
    ∃ i, code[x]? = some i := by
  have hmain : p.main.Contains x := by
    rcases List.mem_cons.1 (hn.main_suffix.mem (List.mem_cons_self ..)) with h | h
    · exact h ▸ hx.1
    · exact hn.contains hx.1 _ h
  have hlt : x < code.size := by
    rw [← size_of_compile hc]
    exact hmain.2
  exact ⟨code[x], Array.getElem?_eq_getElem hlt⟩

theorem drop_of_append_eq {popped rest temps rs : List Int} (h : popped ++ rest = temps ++ rs)
    (hle : popped.length ≤ temps.length) : rest = temps.drop popped.length ++ rs := by
  have hdrop := congrArg (List.drop popped.length) h
  rwa [List.drop_left, List.drop_append_of_le_length hle] at hdrop

/-- An instruction behind which control goes on neither calls nor leaves. -/
theorem stays {i : Instruction} (h : i.transfers = false ∨ i.op = .jpc) :
    i.op ≠ .cal ∧ i.op ≠ .int ∧ i.op ≠ .jmp ∧ ¬ (i.op = .opr ∧ i.offset = .number 0) := by
  obtain ⟨op, level, n | o⟩ := i
  · cases op <;> simp_all [Instruction.transfers]
  · cases op <;> simp_all [Instruction.transfers]

/-- Behind a transfer of control that finds its operands and nothing else, nothing is left. -/
theorem heightAfter_of_transfers {i : Instruction} (h : i.transfers = true) :
    i.heightAfter i.pops = 0 := by
  obtain ⟨op, level, n | o⟩ := i
  · cases op <;> simp_all [Instruction.transfers, Instruction.heightAfter, Instruction.pushes]
  · cases op <;> simp_all [Instruction.transfers, Instruction.heightAfter, Instruction.pushes]

theorem transfers_of_op {i : Instruction}
    (h : i.op = .cal ∨ i.op = .int ∨ i.op = .opr ∧ i.offset = .number 0) :
    i.transfers = true ∧ i.pops = 0 := by
  obtain ⟨op, level, offset⟩ := i
  rcases h with h | h | ⟨h, h'⟩
  · cases h
    exact ⟨rfl, rfl⟩
  · cases h
    exact ⟨rfl, rfl⟩
  · cases h
    cases h'
    exact ⟨rfl, rfl⟩

theorem jumps_of_target {i : Instruction} {target : Int} (h : i.target? = some target) :
    i.transfers = true ∧ i.op ≠ .cal ∧ i.op ≠ .int ∧
      ¬ (i.op = .opr ∧ i.offset = .number 0) := by
  obtain ⟨op, level, n | o⟩ := i
  · cases op <;> simp_all [Instruction.target?, Instruction.transfers]
  · cases op <;> simp_all [Instruction.target?]

theorem track_of_ne (hf : m.fetch? = some (x, i)) (hcal : i.op ≠ .cal)
    (hopr : ¬ (i.op = .opr ∧ i.offset = .number 0)) : m.track calls = calls := by
  simp only [Machine.track, hf, if_neg hcal, if_neg hopr]

theorem track_of_cal (hf : m.fetch? = some (x, i)) (hop : i.op = .cal) :
    m.track calls = ⟨x, i.level⟩ :: calls := by
  simp only [Machine.track, hf, if_pos hop]

theorem track_of_leave (hf : m.fetch? = some (x, i)) (hop : i.op = .opr)
    (hoff : i.offset = .number 0) : m.track calls = calls.tail := by
  have hcal : i.op ≠ .cal := by simp [hop]
  simp only [Machine.track, hf, if_neg hcal, if_pos (And.intro hop hoff)]

/-- An instruction that transfers control finds the return addresses below its operands. -/
theorem rest_of_transfers (hc : p.compile.1 = .ok code) (hi : code[x]? = some i)
    (ht : i.transfers = true) (popped : List Int) {rest temps : List Int}
    (hs : popped ++ rest = temps ++ returns calls) (hp : popped.length = i.pops)
    (hlen : temps.length = heightAt code x) : rest = returns calls := by
  have hheight := (pops_le_heightAt hc hi).2 ht
  have hrest := drop_of_append_eq hs (by omega)
  rwa [List.drop_eq_nil_of_le (by omega), List.nil_append] at hrest

/-! ## One step -/

section

variable {temps popped pushed rest : List Int} {target : Nat} (hc : p.compile.1 = .ok code)
  (hact : Active p code calls (s :: outer)) (hown : s.Owns x) (hi : code[x]? = some i)
  (hf : m.fetch? = some (x, i)) (hstack : m.stack = temps ++ returns calls)
  (hlen : temps.length = heightAt code x)
  (hblocks : m.memory.blocks.length + (if x = s.entry then 1 else 0) =
    outer.length + 1 + drift calls)

include hc hact hown hi hf hstack hlen hblocks

/-- Control goes on behind the instruction: the operands are counted as in `heightAt`. -/
theorem settled_of_next (hop : i.transfers = false ∨ i.op = .jpc)
    (hs : m.stack = popped ++ rest) (hp : popped.length = i.pops)
    (hs' : m'.stack = pushed ++ rest) (hp' : pushed.length = i.pushes)
    (hmem : m'.memory.blocks.length = m.memory.blocks.length) (hip' : m'.ip = some (x + 1)) :
    Settled p code m' (m.track calls) := by
  have hn := hact.nested
  have hge : s.entry ≤ x := hown.1.1
  obtain ⟨hpops, -⟩ := pops_le_heightAt hc hi
  obtain ⟨hcal, hint, hjmp, hopr⟩ := stays hop
  have hleave : i ≠ .leave := by
    rintro rfl
    exact hopr ⟨rfl, rfl⟩
  -- The operands taken are temporaries: the return addresses stay where they are.
  have hrest := drop_of_append_eq (hs.symm.trans hstack) (by omega)
  rw [track_of_ne hf hcal hopr]
  refine .running (pushed ++ temps.drop popped.length) hip' hact
    (hn.owns_succ hc hown hi hjmp hleave) ?_ ?_ ?_
  · rw [hs', hrest, List.append_assoc]
  · rw [heightAt_succ hi, List.length_append, List.length_drop, hp', hlen, hp]
    unfold Instruction.heightAfter
    omega
  · rw [if_neg (hn.ne_entry hc hi hint)] at hblocks
    rw [if_neg (by omega), hmem]
    exact hblocks

/-- A jump finds its operands and nothing else, and no temporaries are left where it leads. -/
theorem settled_of_jump (ht : i.target? = some (target : Int)) (hs : m.stack = popped ++ m'.stack)
    (hp : popped.length = i.pops) (hmem : m'.memory.blocks.length = m.memory.blocks.length)
    (hip' : m'.ip = some target) : Settled p code m' (m.track calls) := by
  have hn := hact.nested
  obtain ⟨htrans, hcal, hint, hopr⟩ := jumps_of_target ht
  obtain ⟨y, hy, howny, hlt, hzero⟩ := hn.target_spec hc hown hi ht
  cases Int.ofNat_inj.1 hy
  have hrest := rest_of_transfers hc hi htrans popped (hs.symm.trans hstack) hp hlen
  rw [track_of_ne hf hcal hopr]
  refine .running [] hip' hact howny hrest hzero.symm ?_
  rw [if_neg (hn.ne_entry hc hi hint)] at hblocks
  rw [if_neg (by omega), hmem]
  exact hblocks

/-- `INT` opens the block that the count of blocks was short of at the entry. -/
theorem settled_of_opened (hop : i.op = .int) (hs : m'.stack = m.stack)
    (hmem : m'.memory.blocks.length = m.memory.blocks.length + 1) (hip' : m'.ip = some (x + 1)) :
    Settled p code m' (m.track calls) := by
  have hn := hact.nested
  obtain rfl := hn.eq_entry hc hown hi hop
  have hopening := (hn.placed hc s (List.mem_cons_self ..)).opening
  obtain rfl := Option.some.inj (hi.symm.trans hopening)
  have hrest := rest_of_transfers hc hi rfl [] hstack rfl hlen
  have hsucc := hn.owns_succ hc hown hi (by rintro ⟨⟩) (by rintro ⟨⟩)
  rw [track_of_ne hf (by rintro ⟨⟩) (by rintro ⟨⟨⟩, -⟩)]
  refine .running [] hip' hact hsucc (hs.trans hrest) ?_ ?_
  · rw [heightAt_succ hi, (pops_le_heightAt hc hi).2 rfl]
    rfl
  · rw [if_pos rfl] at hblocks
    rw [if_neg (by omega), hmem]
    exact hblocks

/-- A call that is admitted enters a procedure of the subprogram at its level, with that many blocks
    more than nesting accounts for. -/
theorem settled_of_called (hop : i.op = .cal) (hadm : p.Admits x target)
    (hs : m'.stack = ((x + 1 : Nat) : Int) :: m.stack)
    (hmem : m'.memory.blocks.length = m.memory.blocks.length) (hip' : m'.ip = some target) :
    Settled p code m' (m.track calls) := by
  have hn := hact.nested
  obtain ⟨s', outer', f, addr, t, u, hn', hf', haddr, ht, hu, -, rfl⟩ := hadm
  -- The call statement admitted is the one of this `CAL`, as the address has one owner.
  obtain ⟨hown', addr', haddr', hcal⟩ := hn'.call_site hc hf'
  cases hn'.eq_of_owns hn hown' hown
  cases haddr.symm.trans haddr'
  obtain rfl := Option.some.inj (hi.symm.trans hcal)
  have hrest : m.stack = returns calls := rest_of_transfers hc hi rfl [] hstack rfl hlen
  obtain ⟨hlt, hget⟩ := List.getElem?_eq_some_iff.1 ht
  have hdrop : (s :: outer).drop addr.level = t :: (s :: outer).drop (addr.level + 1) := by
    rw [List.drop_eq_getElem_cons hlt, hget]
  have hact' : Active p code (⟨x, addr.level⟩ :: calls) _ := .call hact hown hi hdrop hu
  have hopening := (hact'.nested.placed hc u (List.mem_cons_self ..)).opening
  rw [show m.track calls = ⟨x, addr.level⟩ :: calls from track_of_cal hf rfl]
  refine .running [] hip' hact' u.owns_entry ?_ ?_ ?_
  · rw [hs, hrest]
    rfl
  · exact ((pops_le_heightAt hc hopening).2 rfl).symm
  · rw [if_neg (hn.ne_entry hc hi (by rintro ⟨⟩))] at hblocks
    rw [if_pos rfl, hmem, List.length_cons, List.length_drop, drift_cons]
    simp only [List.length_cons] at hlt ⊢
    omega

/-- `OPR 0 0` finds the return address of the innermost active call on top. -/
theorem settled_of_returned (hop : i.op = .opr) (hoff : i.offset = .number 0)
    (hs : m.stack = (target : Int) :: m'.stack)
    (hmem : m.memory.blocks.length = m'.memory.blocks.length + 1) (hip' : m'.ip = some target) :
    Settled p code m' (m.track calls) := by
  have hn := hact.nested
  obtain ⟨op, level, offset⟩ := i
  cases hop
  cases hoff
  have hrest := rest_of_transfers hc hi rfl [] hstack rfl hlen
  rw [if_neg (hn.ne_entry hc hi (by rintro ⟨⟩))] at hblocks
  cases hact with
  | main => cases hs.symm.trans hrest
  | @call c calls slot s' t _ outer' path hact' hown' hcal hdrop hu =>
    -- The address on top leads back behind the `CAL`, into the subprogram that called.
    obtain ⟨htarget, hstack'⟩ := List.cons.inj (hs.symm.trans hrest)
    cases Int.ofNat_inj.1 htarget
    rw [show m.track (c :: calls) = calls from track_of_leave hf rfl rfl]
    have hn' := hact'.nested
    have hsucc := hn'.owns_succ hc hown' hcal (by rintro ⟨⟩) (by rintro ⟨⟩)
    refine .running [] hip' hact' hsucc hstack' ?_ ?_
    · rw [heightAt_succ hcal, (pops_le_heightAt hc hcal).2 rfl]
      rfl
    · have hge' : s'.entry ≤ c.site := hown'.1.1
      -- The nest grows back by the level of the call, and the levels lose as much.
      have hlen' := congrArg List.length hdrop
      rw [List.length_drop, List.length_cons, List.length_cons] at hlen'
      rw [drift_cons, List.length_cons] at hblocks
      rw [if_neg (by omega)]
      omega

/-- `OPR 0 0` halts where no call is active, that is in the outermost subprogram. -/
theorem settled_of_halted (hop : i.op = .opr) (hoff : i.offset = .number 0) (hs : m.stack = [])
    (hs' : m'.stack = []) (hmem : m.memory.blocks.length = m'.memory.blocks.length + 1)
    (hip' : m'.ip = none) : Settled p code m' (m.track calls) := by
  obtain ⟨op, level, offset⟩ := i
  cases hop
  cases hoff
  have hrest := rest_of_transfers hc hi rfl [] hstack rfl hlen
  rw [if_neg (hact.nested.ne_entry hc hi (by rintro ⟨⟩))] at hblocks
  rw [track_of_leave hf rfl rfl]
  cases hact with
  | main =>
    have hzero : m'.memory.blocks.length = 0 := by
      simp only [drift, List.map_nil, List.sum_nil, List.length_nil] at hblocks
      omega
    exact .halted hip' hs' (List.length_eq_zero_iff.1 hzero)
  | call _ _ _ _ _ => cases hs.symm.trans hrest

end

/-- **A step keeps the invariant.** -/
theorem Settled.step {o : Outcome} (hc : p.compile.1 = .ok code) (hcode : m.code = code)
    (hm : Settled p code m calls) (h : m.step = (o, m')) (ho : o = .running ∨ o = .halted)
    (hadm : ∀ x i, m.fetch? = some (x, i) → i.op = .cal →
      ∀ target, m'.ip = some target → p.Admits x target) :
    Settled p code m' (m.track calls) := by
  cases hm with
  | halted hip hstack hblocks =>
    have hm' : m' = m := by
      simp only [Machine.step, hip] at h
      exact (Prod.ext_iff.1 h).2.symm
    -- A halted machine fetches nothing and stays as it is.
    have htrack : m.track [] = [] := by simp [Machine.track, Machine.fetch?, hip]
    rw [hm', htrack]
    exact .halted hip hstack hblocks
  | @running _ x s outer temps hip hact hown hstack hlen hblocks =>
    obtain ⟨i, hi⟩ := hact.nested.fetch hc hown
    have hf : m.fetch? = some (x, i) := by simp [Machine.fetch?, hip, hcode, hi]
    obtain ⟨-, heff⟩ := Machine.effect_of_step hip (hcode ▸ hi) h ho
    cases heff with
    | next popped pushed rest hop hs hp hs' hp' hmem hip' =>
      exact settled_of_next hc hact hown hi hf hstack hlen hblocks hop hs hp hs' hp' hmem hip'
    | jump target popped ht hs hp hmem hip' =>
      exact settled_of_jump hc hact hown hi hf hstack hlen hblocks ht hs hp hmem hip'
    | opened hop hs hmem hip' =>
      exact settled_of_opened hc hact hown hi hf hstack hlen hblocks hop hs hmem hip'
    | called target hop hs hmem hip' =>
      have hadmits := hadm x i hf hop target hip'
      exact settled_of_called hc hact hown hi hf hstack hlen hblocks hop hadmits hs hmem hip'
    | returned target hop hoff hs hmem hip' =>
      exact settled_of_returned hc hact hown hi hf hstack hlen hblocks hop hoff hs hmem hip'
    | halted hop hoff hs hs' hmem hip' =>
      exact settled_of_halted hc hact hown hi hf hstack hlen hblocks hop hoff hs hs' hmem hip'

/-- **The invariant holds** of every machine that a run reaches. -/
theorem Runs.settled {input : List Int} {sink : Sink} (hc : p.compile.1 = .ok code)
    (h : p.Runs code input sink m calls) : m.code = code ∧ Settled p code m calls := by
  induction h with
  | start =>
    refine ⟨rfl, .running [] rfl .main p.main.owns_entry rfl rfl rfl⟩
  | @step m m' calls o _ hstep ho hadm ih =>
    obtain ⟨hcode, hsettled⟩ := ih
    refine ⟨?_, hsettled.step hc hcode hstep ho hadm⟩
    cases hsettled with
    | halted hip _ _ =>
      simp only [Machine.step, hip] at hstep
      cases hstep
      exact hcode
    | running temps hip hact hown _ _ _ =>
      obtain ⟨i, hi⟩ := hact.nested.fetch hc hown
      rw [(Machine.effect_of_step hip (hcode ▸ hi) hstep ho).1, hcode]

/-! ## What the invariant says -/

theorem Active.sites (h : Active p code calls path) :
    ∀ c ∈ calls, ∃ slot : Int, code[c.site]? = some (.make .cal c.level slot) := by
  induction h with
  | main => exact fun c hc => absurd hc List.not_mem_nil
  | @call c _ slot _ _ _ _ _ _ _ hcal _ _ ih =>
    intro d hd
    rcases List.mem_cons.1 hd with rfl | hd
    · exact ⟨slot, hcal⟩
    · exact ih d hd

/-- The operands in front of an address have been computed by the instructions right before it, in
    one straight line and within the same subprogram. -/
theorem Nested.computed (hc : p.compile.1 = .ok code) (hn : p.Nested (s :: outer)) (hx : s.Owns x) :
    ∃ a ≤ x, heightAt code a = 0 ∧
      ∀ y i, a ≤ y → y < x → code[y]? = some i → s.Owns y ∧ i.transfers = false := by
  induction x with
  | zero => exact ⟨0, Nat.le_refl 0, rfl, fun y i _ hy => absurd hy (Nat.not_lt_zero y)⟩
  | succ x ih =>
    by_cases hzero : heightAt code (x + 1) = 0
    · exact ⟨x + 1, Nat.le_refl _, hzero, fun y i hle hlt => by omega⟩
    · obtain ⟨j, hj⟩ := hn.fetch hc hx
      have hlt : x < code.size := by
        have := (Array.getElem?_eq_some_iff.1 hj).1
        omega
      obtain ⟨t, path, hn', ht⟩ := exists_owner hc hlt
      obtain ⟨i, hi⟩ := hn'.fetch hc ht
      have hheight := heightAt_succ hi
      -- Behind a transfer of control the height is 0, so there is none in front of an operand.
      have hstays : i.transfers = false := by
        by_contra htrans
        rw [Bool.not_eq_false] at htrans
        rw [(pops_le_heightAt hc hi).2 htrans] at hheight
        exact hzero (hheight.trans (heightAfter_of_transfers htrans))
      obtain ⟨-, -, hjmp, hopr⟩ := stays (Or.inl hstays)
      have hsucc := hn'.owns_succ hc ht hi hjmp (by rintro rfl; exact hopr ⟨rfl, rfl⟩)
      -- Control comes from the address in front, so both have the same owner.
      cases hn.eq_of_owns hn' hx hsucc
      obtain ⟨a, hle, ha, hbetween⟩ := ih ht
      refine ⟨a, by omega, ha, fun y k hay hyx hk => ?_⟩
      rcases Nat.lt_succ_iff_lt_or_eq.1 hyx with hyx | rfl
      · exact hbetween y k hay hyx hk
      · cases hi.symm.trans hk
        exact ⟨ht, hstays⟩

theorem drift_eq_zero_iff : drift calls = 0 ↔ ∀ c ∈ calls, c.level = 0 := by
  induction calls with
  | nil => simp [drift]
  | cons c calls ih => simp [drift_cons, ih]

/-- **A machine between two steps**, in the subprogram `s` at lexical depth `outer.length + 1`,
    with the temporaries `temps` of the current expression. -/
structure Disciplined (p : Program) (code : Array Instruction) (m : Machine)
    (calls : List ActiveCall) (x : Nat) (s : Subprogram) (outer : List Subprogram)
    (temps : List Int) : Prop where
  nested : p.Nested (s :: outer)
  owns : s.Owns x
  /-- An active call knows the address and the level of its `CAL`. -/
  sites : ∀ c ∈ calls, ∃ slot : Int, code[c.site]? = some (.make .cal c.level slot)
  /-- One return address for each active call, and the temporaries on top. -/
  stack : m.stack = temps ++ calls.map ActiveCall.returnAddress
  height : temps.length = heightAt code x
  /-- The temporaries come from the instructions right in front of `x`, a straight line. -/
  computed : ∃ a ≤ x, heightAt code a = 0 ∧
    ∀ y i, a ≤ y → y < x → code[y]? = some i → s.Owns y ∧ i.transfers = false
  /-- There are none at a `CAL`, an `INT` or an `OPR 0 0`. -/
  clear : ∀ i, code[x]? = some i →
    i.op = .cal ∨ i.op = .int ∨ i.op = .opr ∧ i.offset = .number 0 → temps = []
  /-- There are none where a jump leads to. -/
  target : ∀ (y : Nat) (i : Instruction), code[y]? = some i → i.target? = some (x : Int) →
    temps = []
  /-- Between `INT` and `OPR 0 0`, the blocks are the lexical depth and the levels of the calls. -/
  depth : x ≠ s.entry →
    m.memory.blocks.length = outer.length + 1 + (calls.map ActiveCall.level).sum
  /-- They are as many as the lexical depth exactly if all active calls have level 0. -/
  lexical : x ≠ s.entry →
    (m.memory.blocks.length = outer.length + 1 ↔ ∀ c ∈ calls, c.level = 0)

/-- **Activation discipline and depth.** Of a run whose calls have all loaded entry addresses that
    they may go to, every halted machine is empty and every running one is disciplined. -/
theorem Runs.discipline {input : List Int} {sink : Sink} (hc : p.compile.1 = .ok code)
    (h : p.Runs code input sink m calls) :
    (m.ip = none → m.stack = [] ∧ m.memory.blocks = [] ∧ calls = []) ∧
      ∀ x, m.ip = some x → ∃ s outer temps, Disciplined p code m calls x s outer temps := by
  obtain ⟨-, hsettled⟩ := h.settled hc
  cases hsettled with
  | halted hip hstack hblocks =>
    refine ⟨fun _ => ⟨hstack, hblocks, rfl⟩, fun x hx => ?_⟩
    rw [hip] at hx
    cases hx
  | @running _ x s outer temps hip hact hown hstack hlen hblocks =>
    refine ⟨fun hnone => ?_, fun y hy => ?_⟩
    · rw [hip] at hnone
      cases hnone
    · cases hip.symm.trans hy
      have hn := hact.nested
      refine ⟨s, outer, temps, hn, hown, hact.sites, hstack, hlen, hn.computed hc hown, ?_, ?_, ?_,
        ?_⟩
      · intro i hi hop
        obtain ⟨htrans, hpops⟩ := transfers_of_op hop
        refine List.length_eq_zero_iff.1 ?_
        rw [hlen, (pops_le_heightAt hc hi).2 htrans, hpops]
      · intro y i hi ht
        obtain ⟨t, path, hn', hown'⟩ := exists_owner hc (Array.getElem?_eq_some_iff.1 hi).1
        obtain ⟨z, hz, -, -, hzero⟩ := hn'.target_spec hc hown' hi ht
        cases Int.ofNat_inj.1 hz
        exact List.length_eq_zero_iff.1 (hlen.trans hzero)
      · intro hne
        rwa [if_neg hne, Nat.add_zero] at hblocks
      · intro hne
        rw [if_neg hne, Nat.add_zero] at hblocks
        rw [hblocks, ← drift_eq_zero_iff]
        omega

/-- The program `procedure p; call p; call p .` The call in the procedure has level 1. -/
def endless : Program :=
  ⟨.mk [] [] [.mk ⟨"p", 10⟩ (.mk [] [] [] (.call ⟨"p", 18⟩))] (.call ⟨"p", 26⟩)⟩

/-- The code of `endless`. -/
def endlessCode : Array Instruction :=
  #[.make .int 0 1, .make .lit 0 4, .make .sto 0 0, .make .jmp 0 7,
    .make .int 0 0, .make .cal 1 0, .leave,
    .make .cal 0 0, .leave]

theorem compile_endless : endless.compile.1 = .ok endlessCode := by cbv

/-- The machine that executes `endless`, about to take the instruction at `x`. -/
def endlessAt (x : Nat) (stack : List Int) (blocks : List (List Int)) : Machine :=
  ⟨endlessCode, some x, stack, ⟨blocks⟩, [], Sink.unlimited⟩

/-- In the second activation of `p` the call from the first one is still active. It has level 1, so
    that there are three blocks at lexical depth 2. -/
theorem endless_discipline : ∃ m, endless.compile.1 = .ok endlessCode ∧
    endless.Runs endlessCode [] Sink.unlimited m [⟨5, 1⟩, ⟨7, 0⟩] ∧ m.ip = some 5 ∧
    ∃ s outer temps, Disciplined endless endlessCode m [⟨5, 1⟩, ⟨7, 0⟩] 5 s outer temps ∧
      outer.length = 1 ∧ m.memory.blocks.length = 3 ∧ m.stack = temps ++ [6, 8] := by
  have h0 : endless.Runs endlessCode [] .unlimited (endlessAt 0 [] []) [] := .start
  have h1 : endless.Runs endlessCode [] .unlimited (endlessAt 1 [] [[0]]) [] :=
    h0.step rfl (Or.inl rfl) (by rintro x i ⟨⟩ ⟨⟩)
  have h2 : endless.Runs endlessCode [] .unlimited (endlessAt 2 [4] [[0]]) [] :=
    h1.step rfl (Or.inl rfl) (by rintro x i ⟨⟩ ⟨⟩)
  have h3 : endless.Runs endlessCode [] .unlimited (endlessAt 3 [] [[4]]) [] :=
    h2.step rfl (Or.inl rfl) (by rintro x i ⟨⟩ ⟨⟩)
  have h4 : endless.Runs endlessCode [] .unlimited (endlessAt 7 [] [[4]]) [] :=
    h3.step rfl (Or.inl rfl) (by rintro x i ⟨⟩ ⟨⟩)
  -- Both `CAL`s have loaded 4, the entry address of `p`: the first one from the innermost block,
  have h5 : endless.Runs endlessCode [] .unlimited (endlessAt 4 [8] [[4]]) [⟨7, 0⟩] := by
    refine h4.step rfl (Or.inl rfl) ?_
    rintro x i ⟨⟩ - target ⟨⟩
    exact ⟨endless.main, [], ⟨"p", 26⟩, _, endless.main, _, .main, List.mem_cons_self .., rfl, rfl,
      List.mem_cons_self .., rfl, rfl⟩
  have h6 : endless.Runs endlessCode [] .unlimited (endlessAt 5 [8] [[], [4]]) [⟨7, 0⟩] :=
    h5.step rfl (Or.inl rfl) (by rintro x i ⟨⟩ ⟨⟩)
  -- the second one from the block below it, which is still that of the statement part.
  have h7 : endless.Runs endlessCode [] .unlimited (endlessAt 4 [6, 8] [[], [4]])
      [⟨5, 1⟩, ⟨7, 0⟩] := by
    refine h6.step rfl (Or.inl rfl) ?_
    rintro x i ⟨⟩ - target ⟨⟩
    exact ⟨_, [endless.main], ⟨"p", 18⟩, _, endless.main, _, .inner .main (List.mem_cons_self ..),
      List.mem_cons_self .., rfl, rfl, List.mem_cons_self .., rfl, rfl⟩
  have h8 : endless.Runs endlessCode [] .unlimited (endlessAt 5 [6, 8] [[], [], [4]])
      [⟨5, 1⟩, ⟨7, 0⟩] :=
    h7.step rfl (Or.inl rfl) (by rintro x i ⟨⟩ ⟨⟩)
  obtain ⟨s, outer, temps, hd⟩ := (h8.discipline compile_endless).2 5 rfl
  have hdepth : 3 = outer.length + 1 + 1 :=
    hd.depth (hd.nested.ne_entry compile_endless rfl (by decide))
  exact ⟨_, compile_endless, h8, rfl, s, outer, temps, hd, by omega, rfl, hd.stack⟩

end Program

end PL0
