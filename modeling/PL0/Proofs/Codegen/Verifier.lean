import PL0.Proofs.Codegen.Sites

/-!
# `Codegen.Verifier` — what a bytecode verifier checks

`Verified` lists what a verifier would check of a program before it runs it: where the subprograms
lie, where jumps lead, what stands in front of a procedure, which levels and offsets are used, and
how high the operand stack is at every address. Main statement: `Program.compile_verified`, all
generated code passes.
-/

namespace PL0

/-- The instruction takes its cell from its level and offset. -/
def Instruction.accesses (i : Instruction) : Prop := i.op = .lod ∨ i.op = .sto ∨ i.op = .cal

/-- **The checks.** A path `s :: outer` of nested subprograms stands for its first one, `s`, at
    lexical depth `outer.length + 1`; `outer` are the subprograms around it, the nearest first. -/
structure Verified (p : Program) (code : Array Instruction) : Prop where
  /-- The range of the outermost subprogram is the whole code. -/
  whole : p.main.entry = 0 ∧ p.main.stop = code.size
  /-- A range starts with `INT` for as many slots as names are declared in it, each counted once. -/
  opening : ∀ s outer, p.Nested (s :: outer) →
    code[s.entry]? = some (.make .int 0 (s.block.names.dedup.length : Int))
  /-- A range ends with `OPR 0 0`. -/
  closing : ∀ s outer, p.Nested (s :: outer) →
    s.entry < s.last ∧ s.stop = s.last + 1 ∧ code[s.last]? = some .leave
  /-- The ranges directly inside a range are those of its procedures, in order and without
      overlap. -/
  nesting : ∀ s outer, p.Nested (s :: outer) →
    s.inner.map (fun t => (t.name, t.block)) =
        s.block.procedures.map (fun q => (some q.name, q.block)) ∧
      (∀ t ∈ s.inner, s.entry < t.entry ∧ t.stop < s.stop) ∧
      s.inner.Pairwise (fun t u => t.stop < u.entry)
  /-- Every address belongs to one subprogram. -/
  owner : ∀ x < code.size, ∃! path : List Subprogram,
    p.Nested path ∧ ∃ s ∈ path.head?, s.Owns x
  /-- A jump stays in its subprogram and leads behind its `INT`. -/
  jumps : ∀ s outer, p.Nested (s :: outer) → ∀ x i, s.Owns x → code[x]? = some i →
    i.op = .jmp ∨ i.op = .jpc →
      ∃ y : Nat, i.offset = .number y ∧ s.Owns y ∧ s.entry < y
  /-- A procedure is declared by three instructions right in front of its `INT`: its entry address,
      stored to the slot of its name, and a jump behind its `OPR 0 0`. -/
  declarations : ∀ s outer, p.Nested (s :: outer) → ∀ t ∈ s.inner, ∃ x name sym,
    t.name = some name ∧ s.block.scope.get? name.name = some sym ∧ t.entry = x + 3 ∧
      s.Owns x ∧ s.Owns (x + 1) ∧ s.Owns (x + 2) ∧
      code[x]? = some (.make .lit 0 t.entry) ∧ code[x + 1]? = some (.make .sto 0 sym.slot) ∧
      code[x + 2]? = some (.make .jmp 0 t.stop)
  /-- A level is at most the lexical depth; below it the offset is a slot of the subprogram at that
      level, and at it there are only the two channels. -/
  levels : ∀ s outer, p.Nested (s :: outer) → ∀ x i, s.Owns x → code[x]? = some i → i.accesses →
    ∃ slot : Nat, i.offset = .number slot ∧ i.level ≤ outer.length + 1 ∧
      (i.level < outer.length + 1 →
        ∃ t, (s :: outer)[i.level]? = some t ∧ slot < t.block.names.dedup.length) ∧
      (i.level = outer.length + 1 → i.op = .lod ∧ slot = 0 ∨ i.op = .sto ∧ slot = 1)
  /-- There are operand heights, the same on all ways to an address: every instruction finds its
      operands, what transfers control finds nothing else, and control goes on within the
      subprogram. -/
  heights : ∃ height : Nat → Nat, ∀ s outer, p.Nested (s :: outer) →
    ∀ x i, s.Owns x → code[x]? = some i →
      i.pops ≤ height x ∧ (i.transfers = true → height x = i.pops) ∧
        (i.op ≠ .jmp → i ≠ .leave →
          s.Owns (x + 1) ∧ height (x + 1) = height x - i.pops + i.pushes) ∧
        ∀ y : Nat, i.target? = some (y : Int) → height y = 0

namespace Program

variable {p : Program} {code : Array Instruction} {s t : Subprogram} {path : List Subprogram}
  {x : Nat} {i : Instruction}

/-- An instruction of a statement part that accesses a cell. -/
theorem Nested.plain_levels (hn : p.Nested (s :: path)) (hp : p.PortFree)
    (hi : Plain s.scopes s.block.body.idents i) (hacc : i.accesses) :
    ∃ slot : Nat, i.offset = .number slot ∧ i.level ≤ path.length + 1 ∧
      (i.level < path.length + 1 →
        ∃ t, (s :: path)[i.level]? = some t ∧ slot < t.block.names.dedup.length) ∧
      (i.level = path.length + 1 → i.op = .lod ∧ slot = 0 ∨ i.op = .sto ∧ slot = 1) := by
  cases hi with
  | literal n => simp [Instruction.accesses, Instruction.make] at hacc
  | operator op => simp [Instruction.accesses, Instruction.apply] at hacc
  | @access op y a hop hy ha =>
    have hord := hp.nested hn s (List.mem_cons_self ..) y (Block.mem_idents_of_body hy)
    obtain ⟨t, ht, -, hslot⟩ := hn.resolve_lt hord ha
    have hlt : a.level < path.length + 1 := (List.getElem?_eq_some_iff.1 ht).1
    refine ⟨a.symbol.slot, rfl, Nat.le_of_lt hlt, fun _ => ⟨t, ht, ?_⟩, fun h => ?_⟩
    · rwa [Block.size_scope] at hslot
    · exact absurd h (Nat.ne_of_lt hlt)
  | @input a ha =>
    -- The channels lie right below the scopes, at a level equal to the lexical depth.
    obtain ⟨hl, hslot⟩ := hn.resolve_readChannel hp ha
    refine ⟨a.symbol.slot, rfl, Nat.le_of_eq hl, fun h => ?_, fun _ => Or.inl ⟨rfl, hslot⟩⟩
    exact absurd hl (Nat.ne_of_lt h)
  | @output a ha =>
    obtain ⟨hl, hslot⟩ := hn.resolve_writeChannel hp ha
    refine ⟨a.symbol.slot, rfl, Nat.le_of_eq hl, fun h => ?_, fun _ => Or.inr ⟨rfl, hslot⟩⟩
    exact absurd hl (Nat.ne_of_lt h)
  | jump target hop =>
    rcases hop with rfl | rfl
    · simp [Instruction.accesses, Instruction.make] at hacc
    · simp [Instruction.accesses, Instruction.make] at hacc

/-- **Levels and offsets** of an owned instruction. -/
theorem Nested.levels (hc : p.compile.1 = .ok code) (hn : p.Nested (s :: path)) (hp : p.PortFree)
    (hx : s.Owns x) (hi : code[x]? = some i) (hacc : i.accesses) :
    ∃ slot : Nat, i.offset = .number slot ∧ i.level ≤ path.length + 1 ∧
      (i.level < path.length + 1 →
        ∃ t, (s :: path)[i.level]? = some t ∧ slot < t.block.names.dedup.length) ∧
      (i.level = path.length + 1 → i.op = .lod ∧ slot = 0 ∨ i.op = .sto ∧ slot = 1) := by
  cases hn.site hc hx hi with
  | opening _ => simp [Instruction.accesses, Instruction.make] at hacc
  | literal n _ _ => simp [Instruction.accesses, Instruction.make] at hacc
  | @define slot _ _ hslot =>
    rw [Block.size_scope] at hslot
    refine ⟨slot, rfl, Nat.zero_le _, fun _ => ⟨s, rfl, hslot⟩, fun h => ?_⟩
    exact absurd h (Nat.succ_ne_zero _).symm
  | skip _ _ => simp [Instruction.accesses, Instruction.make] at hacc
  | body hbs _ _ hget =>
    have hplain := Statement.plain_code hbs i (List.mem_of_getElem? hget)
    exact hn.plain_levels hp hplain hacc
  | closing _ => simp [Instruction.accesses, Instruction.leave, Instruction.make] at hacc

theorem Nested.declarations (hc : p.compile.1 = .ok code) (hn : p.Nested (s :: path))
    (ht : t ∈ s.inner) : ∃ x name sym,
      t.name = some name ∧ s.block.scope.get? name.name = some sym ∧ t.entry = x + 3 ∧
        s.Owns x ∧ s.Owns (x + 1) ∧ s.Owns (x + 2) ∧
        code[x]? = some (.make .lit 0 t.entry) ∧ code[x + 1]? = some (.make .sto 0 sym.slot) ∧
        code[x + 2]? = some (.make .jmp 0 t.stop) := by
  obtain ⟨x, name, sym, hentry, hname, hsym, hlit, hsto, hjmp⟩ := (Nested.inner hn ht).announced hc
  have hsym := (Subprogram.extends_outer ht).get? hsym
  have howns : s.Owns x := Subprogram.owns_before ht (by omega) (by omega)
  have hnext : s.Owns (x + 1) := Subprogram.owns_before ht (by omega) (by omega)
  have hjump : s.Owns (x + 2) := Subprogram.owns_before ht (by omega) (by omega)
  exact ⟨x, name, sym, hname, hsym, hentry, howns, hnext, hjump, hlit, hsto, hjmp⟩

/-- **All generated code passes the verifier.** -/
theorem compile_verified (hc : p.compile.1 = .ok code) (hp : p.PortFree) : Verified p code where
  whole := ⟨rfl, size_of_compile hc⟩
  opening s outer hn := by
    rw [← Block.size_scope]
    exact (hn.placed hc s (List.mem_cons_self ..)).opening
  closing s outer hn := by
    have hlt := Nat.lt_of_lt_of_le s.entry_lt_bodyStart s.bodyStart_le_last
    exact ⟨hlt, s.stop_eq, (hn.placed hc s (List.mem_cons_self ..)).closing⟩
  nesting s outer hn := by
    refine ⟨Subprogram.declared_blocks .., fun t ht => ?_, ?_⟩
    · have hin := Subprogram.inner_within ht
      exact ⟨by omega, hin.2⟩
    · exact (Subprogram.declared_pairwise ..).imp fun h => by omega
  owner x hx := by
    obtain ⟨s, outer, hn, ho⟩ := exists_owner hc hx
    refine ⟨s :: outer, ⟨hn, s, rfl, ho⟩, ?_⟩
    rintro path ⟨hn', t, ht, ho'⟩
    cases path with
    | nil => cases ht
    | cons u path =>
      cases ht
      exact hn'.eq_of_owns hn ho' ho
  jumps s outer hn x i hx hi hop := by
    obtain ⟨target, ht, hoff⟩ := hn.target?_of_jump hc hx hi hop
    obtain ⟨y, rfl, hy, hlt, -⟩ := hn.target_spec hc hx hi ht
    exact ⟨y, hoff, hy, hlt⟩
  declarations s outer hn t ht := hn.declarations hc ht
  levels s outer hn x i hx hi hacc := hn.levels hc hp hx hi hacc
  heights := by
    refine ⟨heightAt code, fun s outer hn x i hx hi => ?_⟩
    obtain ⟨hpops, htransfers⟩ := pops_le_heightAt hc hi
    refine ⟨hpops, htransfers, fun hjmp hleave => ?_, fun y ht => ?_⟩
    · exact ⟨hn.owns_succ hc hx hi hjmp hleave, heightAt_succ hi⟩
    · obtain ⟨z, hz, -, -, hzero⟩ := hn.target_spec hc hx hi ht
      rw [Int.ofNat_inj.1 hz]
      exact hzero

theorem countdown_verified : countdown.compile.1 = .ok countdownCode ∧ countdown.PortFree ∧
    Verified countdown countdownCode :=
  ⟨compile_countdown, countdown_portFree, compile_verified compile_countdown countdown_portFree⟩

end Program

end PL0
