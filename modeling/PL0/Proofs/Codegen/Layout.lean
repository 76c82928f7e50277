import PL0.Proofs.Codegen.Size
import PL0.Proofs.Codegen.Walk

/-!
# `Codegen.Layout` — where the code of each subprogram lies

A `Subprogram` is a block at its place in the code: the address of its `INT` and the scopes open
around it. `Program.Nested` lists a subprogram together with those around it, innermost first, so
that the length of such a list is the lexical depth. All of this is read off the tree.

Main statements: in the code of a program every subprogram lies at its place (`Program.located`),
its scopes hold what the subprograms around it declare (`Program.Nested.scopes`), and an address
belongs to one subprogram only (`Program.Nested.eq_of_owns`).
-/

namespace PL0

open Codegen

/-! ## Pieces of code -/

/-- The instructions `is` lie in `code` from address `a` on. -/
def Located (code : Array Instruction) (a : Nat) (is : List Instruction) : Prop :=
  ∃ front back, code.toList = front ++ is ++ back ∧ front.length = a

namespace Located

variable {code : Array Instruction} {a : Nat} {i : Instruction} {is js : List Instruction}

theorem whole (code : Array Instruction) : Located code 0 code.toList := ⟨[], [], by simp, rfl⟩

theorem left (h : Located code a (is ++ js)) : Located code a is := by
  obtain ⟨front, back, hcode, ha⟩ := h
  exact ⟨front, js ++ back, by simp [hcode], ha⟩

theorem right (h : Located code a (is ++ js)) : Located code (a + is.length) js := by
  obtain ⟨front, back, hcode, ha⟩ := h
  exact ⟨front ++ is, back, by simp [hcode], by simp [ha]⟩

theorem head (h : Located code a (i :: is)) : code[a]? = some i := by
  obtain ⟨front, back, hcode, ha⟩ := h
  rw [← Array.getElem?_toList, hcode, ← ha]
  simp

theorem tail (h : Located code a (i :: is)) : Located code (a + 1) is := by
  have happend : Located code a ([i] ++ is) := h
  exact happend.right

/-- The instruction behind a piece of code. -/
theorem next (h : Located code a (is ++ i :: js)) : code[a + is.length]? = some i := h.right.head

theorem get (h : Located code a is) {k : Nat} (hk : k < is.length) :
    code[a + k]? = some is[k] := by
  obtain ⟨front, back, hcode, ha⟩ := h
  rw [← Array.getElem?_toList, hcode, ← ha, List.append_assoc,
    List.getElem?_append_right (Nat.le_add_right _ _), Nat.add_sub_cancel_left,
    List.getElem?_append_left hk, List.getElem?_eq_getElem hk]

/-- The instruction at an address among those of the piece. -/
theorem getElem?_sub (h : Located code a is) {x : Nat} (hlo : a ≤ x) (hhi : x < a + is.length) :
    is[x - a]? = code[x]? := by
  have hk : x - a < is.length := by omega
  have hget := h.get hk
  rw [Nat.add_sub_cancel' hlo] at hget
  rw [List.getElem?_eq_getElem hk, hget]

end Located

/-! ## Subprograms -/

/-- A block at its place in the code. -/
structure Subprogram where
  /-- The name it is declared under; the outermost block has none. -/
  name : Option Ident
  /-- The address of its `INT`. -/
  entry : Nat
  /-- The scopes open around it; its own name is declared there already. -/
  outer : Environment
  block : Block

namespace Subprogram

/-- The scopes open in its statement part. -/
def scopes (s : Subprogram) : Environment := s.outer.nest s.block.scope

/-- The address right behind its final `OPR 0 0`. -/
def stop (s : Subprogram) : Nat := s.entry + s.block.codeSize

/-- The subprograms of procedures whose code starts at `a`, declared one after the other in the
    scope `sc`. -/
def declared (env : Environment) (sc : Scope) (a : Nat) : List Procedure → List Subprogram
  | [] => []
  | p :: ps =>
    ⟨some p.name, a + 3, env.nest (sc.declareProcedure p), p.block⟩ ::
      declared env (sc.declareProcedure p) (a + p.codeSize) ps

/-- The address of the first instruction behind its constants. -/
def proceduresStart (s : Subprogram) : Nat := s.entry + 1 + 2 * s.block.consts.length

/-- The subprograms of its own procedures. -/
def inner (s : Subprogram) : List Subprogram :=
  declared s.outer s.block.dataScope s.proceduresStart s.block.procedures

/-- The address of the first instruction of its statement part. -/
def bodyStart (s : Subprogram) : Nat := s.proceduresStart + Procedure.codeSizes s.block.procedures

/-- The address of its final `OPR 0 0`. -/
def last (s : Subprogram) : Nat := s.bodyStart + s.block.body.codeSize

/-- The address lies in its code, the code of its procedures included. -/
def Contains (s : Subprogram) (x : Nat) : Prop := s.entry ≤ x ∧ x < s.stop

/-- The address lies in its code, but not in that of its procedures. -/
def Owns (s : Subprogram) (x : Nat) : Prop := s.Contains x ∧ ∀ t ∈ s.inner, ¬ t.Contains x

theorem stop_eq (s : Subprogram) : s.stop = s.last + 1 := by
  obtain ⟨name, entry, outer, consts, vars, procedures, body⟩ := s
  simp only [stop, last, bodyStart, proceduresStart, Block.codeSize, Block.consts,
    Block.procedures, Block.body]
  omega

end Subprogram

/-- The outermost block at its place. -/
def Program.main (p : Program) : Subprogram := ⟨none, 0, Environment.initial, p.block⟩

/-- A subprogram of the program and the subprograms around it, innermost first. The length of the
    list is the lexical depth of the first. -/
inductive Program.Nested (p : Program) : List Subprogram → Prop where
  | main : p.Nested [p.main]
  | inner {s t : Subprogram} {path : List Subprogram} :
      p.Nested (s :: path) → t ∈ s.inner → p.Nested (t :: s :: path)

/-! ## The subprograms of a list of procedures -/

theorem Procedure.codeSize_eq (p : Procedure) : p.codeSize = 3 + p.block.codeSize := by
  cases p; rfl

namespace Subprogram

variable {env : Environment} {sc : Scope} {a : Nat} {ps : List Procedure} {t : Subprogram}

/-- What is known of a declared subprogram: the code in front of it has three instructions, and it
    sees the names of the scope so far, its own included, but not those of later siblings. -/
theorem declared_spec (ht : t ∈ declared env sc a ps) :
    a + 3 ≤ t.entry ∧ t.stop ≤ a + Procedure.codeSizes ps ∧
      ∃ sc', t.outer = env.nest sc' ∧ sc'.Extends sc ∧
        (ps.foldl Scope.declareProcedure sc).Extends sc' ∧ (sc.Sound → sc'.Sound) := by
  induction ps generalizing sc a with
  | nil => cases ht
  | cons p ps ih =>
    simp only [Procedure.codeSizes, Procedure.codeSize_eq]
    rcases List.mem_cons.1 ht with rfl | ht
    · refine ⟨Nat.le_refl _, ?_, sc.declareProcedure p, rfl, Scope.extends_declare .., ?_, ?_⟩
      · show a + 3 + p.block.codeSize ≤ _
        omega
      · exact Scope.extends_procedures ps _
      · exact fun h => h.declare ..
    · obtain ⟨hlo, hhi, sc', he, hext, hext', hs⟩ := ih ht
      rw [Procedure.codeSize_eq] at hlo hhi
      refine ⟨by omega, by omega, sc', he, hext.trans (Scope.extends_declare ..), hext', ?_⟩
      exact fun h => hs (h.declare ..)

/-- The ranges of sibling subprograms follow each other, three instructions apart. -/
theorem declared_pairwise (env : Environment) (sc : Scope) (a : Nat) (ps : List Procedure) :
    (declared env sc a ps).Pairwise fun t u => t.stop + 3 ≤ u.entry := by
  induction ps generalizing sc a with
  | nil => exact List.Pairwise.nil
  | cons p ps ih =>
    refine List.Pairwise.cons (fun u hu => ?_) (ih _ _)
    obtain ⟨hlo, -⟩ := declared_spec hu
    rw [Procedure.codeSize_eq] at hlo
    show a + 3 + p.block.codeSize + 3 ≤ u.entry
    omega

theorem declared_blocks (env : Environment) (sc : Scope) (a : Nat) (ps : List Procedure) :
    (declared env sc a ps).map (fun t => (t.name, t.block)) =
      ps.map fun p => (some p.name, p.block) := by
  induction ps generalizing sc a with
  | nil => rfl
  | cons p ps ih => simp [declared, ih]

/-- Every address in the code of the procedures is in one of them or among the three instructions
    in front of one. -/
theorem exists_declared (env : Environment) (sc : Scope) {x : Nat} (hlo : a ≤ x)
    (hhi : x < a + Procedure.codeSizes ps) :
    ∃ t ∈ declared env sc a ps, t.entry ≤ x + 3 ∧ x < t.stop := by
  induction ps generalizing sc a with
  | nil => exact absurd hhi (by simp [Procedure.codeSizes]; omega)
  | cons p ps ih =>
    rcases Nat.lt_or_ge x (a + p.codeSize) with hx | hx
    · refine ⟨_, List.mem_cons_self .., ?_, ?_⟩
      · show a + 3 ≤ x + 3
        omega
      · show x < a + 3 + p.block.codeSize
        rw [Procedure.codeSize_eq] at hx
        omega
    · simp only [Procedure.codeSizes] at hhi
      obtain ⟨t, ht, h⟩ := ih (sc.declareProcedure p) hx (by omega)
      exact ⟨t, List.mem_cons_of_mem _ ht, h⟩

/-- The three instructions in front of a subprogram store its entry address to the slot of its name
    and jump over it. -/
def Announced (code : Array Instruction) (t : Subprogram) : Prop :=
  ∃ (h : Nat) (x : Ident) (sym : Symbol), t.entry = h + 3 ∧ t.name = some x ∧
    t.outer.current.get? x.name = some sym ∧
    code[h]? = some (.make .lit 0 t.entry) ∧ code[h + 1]? = some (.make .sto 0 sym.slot) ∧
    code[h + 2]? = some (.make .jmp 0 t.stop)

theorem declared_located {code : Array Instruction} {is : List Instruction}
    (h : Procedure.codes env sc a ps = .ok is) (hl : Located code a is)
    (ht : t ∈ declared env sc a ps) :
    (∃ js, t.block.code t.outer t.entry = .ok js ∧ Located code t.entry js) ∧
      t.Announced code := by
  induction ps generalizing sc a is with
  | nil => cases ht
  | cons p ps ih =>
    obtain ⟨is, his, js, hjs, rfl⟩ := Procedure.codes_cons_eq_ok_iff.1 h
    rcases List.mem_cons.1 ht with rfl | ht
    · obtain ⟨-, -, bs, hbs, -, rfl⟩ := Procedure.code_eq_ok_iff.1 his
      have hlen : bs.length = p.block.codeSize := Block.length_code hbs
      rw [hlen] at hl
      refine ⟨⟨bs, hbs, hl.left.tail.tail.tail⟩, a, p.name, _, rfl, rfl, Scope.get?_declare ..,
        hl.head, hl.tail.head, hl.tail.tail.head⟩
    · rw [Procedure.length_code his] at hjs
      -- The code of the other procedures lies behind that of the first.
      have hl' := hl.right
      rw [Procedure.length_code his] at hl'
      exact ih hjs hl' ht

/-- The parts of a subprogram lie at their places. -/
structure Placed (code : Array Instruction) (s : Subprogram) : Prop where
  opening : code[s.entry]? = some (.make .int 0 s.block.scope.size)
  consts : ∃ cs, constsCode Scope.empty s.block.consts = .ok cs ∧ Located code (s.entry + 1) cs
  procedures : ∃ ps, Procedure.codes s.outer s.block.dataScope s.proceduresStart
    s.block.procedures = .ok ps ∧ Located code s.proceduresStart ps
  body : ∃ bs, s.block.body.code s.scopes s.bodyStart = .ok bs ∧ Located code s.bodyStart bs
  closing : code[s.last]? = some .leave

theorem placed {code : Array Instruction} {s : Subprogram} {is : List Instruction}
    (h : s.block.code s.outer s.entry = .ok is) (hl : Located code s.entry is) :
    s.Placed code := by
  obtain ⟨cs, hcs, ps, hps, bs, hbs, -, rfl⟩ := Block.code_eq_ok_iff.1 h
  -- The parts follow each other: each starts where the lengths in front of it add up to.
  have hc : s.entry + 1 + cs.length = s.proceduresStart := by
    rw [length_constsCode hcs, proceduresStart]
  have hp : s.proceduresStart + ps.length = s.bodyStart := by
    rw [Procedure.length_codes hps, bodyStart]
  have hb : s.bodyStart + bs.length = s.last := by rw [Statement.length_code hbs, last]
  rw [hc] at hps hbs
  rw [hp] at hbs
  have hcons : Located code (s.entry + 1) (cs ++ ps ++ bs ++ [.leave]) := hl.tail
  have hprocs : Located code s.proceduresStart ps := hc ▸ hcons.left.left.right
  have hbody : Located code s.bodyStart bs := by
    have := hcons.left.right
    rwa [List.length_append, ← Nat.add_assoc, hc, hp] at this
  have hlast : Located code s.last [.leave] := by
    have := hcons.right
    rwa [List.length_append, List.length_append, ← Nat.add_assoc, ← Nat.add_assoc, hc, hp,
      hb] at this
  exact ⟨hl.head, ⟨cs, hcs, hcons.left.left.left⟩, ⟨ps, hps, hprocs⟩, ⟨bs, hbs, hbody⟩, hlast.head⟩

/-- The subprograms of the procedures of a placed subprogram are announced and placed. -/
theorem Placed.inner {code : Array Instruction} {s t : Subprogram} (h : s.Placed code)
    (ht : t ∈ s.inner) : t.Placed code ∧ t.Announced code := by
  obtain ⟨ps, hps, hl⟩ := h.procedures
  obtain ⟨⟨js, hjs, hjl⟩, hann⟩ := declared_located hps hl ht
  exact ⟨placed hjs hjl, hann⟩

end Subprogram

/-! ## The subprograms of a program -/

namespace Program

variable {p : Program} {code : Array Instruction} {s t : Subprogram} {path : List Subprogram}

/-- The code of a program is the code of its outermost block at address 0. -/
theorem block_code_of_compile (h : p.compile.1 = .ok code) :
    p.block.code Environment.initial 0 = .ok code.toList := by
  rw [compile_eq] at h
  cases hb : p.block.code Environment.initial 0 with
  | error e => rw [hb] at h; cases h
  | ok is =>
    rw [hb] at h
    cases h
    rfl

/-- The outermost subprogram is the whole code. -/
theorem size_of_compile (h : p.compile.1 = .ok code) : p.main.stop = code.size := by
  have hlen := Block.length_code (block_code_of_compile h)
  rw [Array.length_toList] at hlen
  simp [Subprogram.stop, main, hlen]

/-- **Every subprogram lies at its place** in the code of the program. -/
theorem Nested.placed (h : p.compile.1 = .ok code) (hn : p.Nested path) :
    ∀ s ∈ path, s.Placed code := by
  induction hn with
  | main =>
    intro s hs
    rw [List.mem_singleton.1 hs]
    exact Subprogram.placed (block_code_of_compile h) (Located.whole code)
  | inner _ ht ih =>
    intro s hs
    rcases List.mem_cons.1 hs with rfl | hs
    · exact ((ih _ (List.mem_cons_self ..)).inner ht).1
    · exact ih s hs

theorem Nested.announced (h : p.compile.1 = .ok code) (hn : p.Nested (t :: s :: path)) :
    t.Announced code := by
  cases hn with
  | inner hn ht => exact ((hn.placed h s (List.mem_cons_self ..)).inner ht).2

/-- **The scopes of a subprogram** belong to the subprograms around it, each holding a first part of
    what its subprogram declares, above the channels. -/
theorem Nested.scopes (hn : p.Nested path) : ∀ s ∈ path.head?,
    s.scopes.base = Scope.channels ∧
      List.Forall₂ (fun sc t => t.block.scope.Extends sc ∧ sc.Sound) s.scopes.scopes path := by
  induction hn with
  | main =>
    rintro s ⟨⟩
    exact ⟨rfl, .cons ⟨Scope.Extends.refl _, Block.sound_scope _⟩ .nil⟩
  | @inner s t path _ ht ih =>
    rintro t' ⟨⟩
    obtain ⟨hbase, hscopes⟩ := ih s rfl
    obtain ⟨-, -, sc, houter, -, hext, hsound⟩ := Subprogram.declared_spec ht
    unfold Subprogram.scopes at *
    rw [houter]
    refine ⟨hbase, .cons ⟨Scope.Extends.refl _, Block.sound_scope _⟩ ?_⟩
    -- Of the block around it a procedure sees no more than the names up to its own.
    rcases hscopes with _ | ⟨-, hrest⟩
    exact .cons ⟨hext, hsound s.block.sound_dataScope⟩ hrest

/-! ## One owner for each address -/

theorem Nested.tail (hn : p.Nested (t :: s :: path)) : p.Nested (s :: path) := by
  cases hn with
  | inner hn _ => exact hn

theorem Nested.mem_inner (hn : p.Nested (t :: s :: path)) : t ∈ s.inner := by
  cases hn with
  | inner _ ht => exact ht

theorem Nested.drop {front : List Subprogram} (hn : p.Nested (front ++ s :: path)) :
    p.Nested (s :: path) := by
  induction front with
  | nil => exact hn
  | cons t front ih =>
    cases front with
    | nil => exact hn.tail
    | cons u front => exact ih hn.tail

theorem Nested.main_suffix (hn : p.Nested path) : [p.main] <:+ path := by
  induction hn with
  | main => exact List.suffix_rfl
  | inner _ _ ih => exact ih.trans (List.suffix_cons ..)

end Program

namespace Subprogram

variable {s t u : Subprogram} {x : Nat}

/-- The ranges of the procedures of a subprogram lie strictly inside its own. -/
theorem inner_within (ht : t ∈ s.inner) : s.entry + 4 ≤ t.entry ∧ t.stop < s.stop := by
  obtain ⟨hlo, hhi, -⟩ := declared_spec ht
  rw [stop_eq s]
  unfold last bodyStart proceduresStart at *
  omega

theorem contains_of_inner (ht : t ∈ s.inner) (hx : t.Contains x) : s.Contains x := by
  obtain ⟨hlo, hhi⟩ := inner_within ht
  exact ⟨by have := hx.1; omega, by have := hx.2; omega⟩

/-- Three instructions or more lie between the ranges of two subprograms. -/
def Apart (t u : Subprogram) : Prop := t.stop + 3 ≤ u.entry ∨ u.stop + 3 ≤ t.entry

instance : Std.Symm Apart := ⟨fun _ _ => Or.symm⟩

theorem apart_of_ne (ht : t ∈ s.inner) (hu : u ∈ s.inner) (hne : t ≠ u) : t.Apart u := by
  have hpair : s.inner.Pairwise Apart := (declared_pairwise ..).imp Or.inl
  exact hpair.forall ht hu hne

/-- Siblings share no address. -/
theorem eq_of_contains (ht : t ∈ s.inner) (hu : u ∈ s.inner) (htx : t.Contains x)
    (hux : u.Contains x) : t = u := by
  by_contra hne
  obtain ⟨ht1, ht2⟩ := htx
  obtain ⟨hu1, hu2⟩ := hux
  rcases apart_of_ne ht hu hne with h | h
  · omega
  · omega

end Subprogram

namespace Program

variable {p : Program} {s t : Subprogram} {path path' : List Subprogram} {x : Nat}

theorem Nested.contains (hn : p.Nested (t :: path)) (hx : t.Contains x) :
    ∀ s ∈ path, s.Contains x := by
  induction path generalizing t with
  | nil => simp
  | cons s path ih =>
    intro u hu
    have hs : s.Contains x := Subprogram.contains_of_inner hn.mem_inner hx
    rcases List.mem_cons.1 hu with rfl | hu
    · exact hs
    · exact ih hn.tail hs u hu

/-- Of two subprograms that contain an address, one lies inside the other. -/
theorem Nested.comparable (hn : p.Nested path) (hn' : p.Nested path')
    (hx : ∀ s ∈ path, s.Contains x) (hx' : ∀ s ∈ path', s.Contains x) :
    path <:+ path' ∨ path' <:+ path := by
  induction hn with
  | main => exact Or.inl hn'.main_suffix
  | @inner s t path hn ht ih =>
    rcases ih (fun u hu => hx u (List.mem_cons_of_mem _ hu)) with ⟨front, rfl⟩ | h
    · rcases List.eq_nil_or_concat' front with rfl | ⟨front, u, rfl⟩
      · exact Or.inr (List.suffix_cons ..)
      · -- The other path enters a procedure of `s` too: it is the same one.
        rw [List.append_assoc] at hn' hx' ⊢
        have hu : u = t := Subprogram.eq_of_contains (Nested.drop hn').mem_inner ht
          (hx' u (by simp)) (hx t (List.mem_cons_self ..))
        rw [hu]
        exact Or.inl (List.suffix_append ..)
    · exact Or.inr (h.trans (List.suffix_cons ..))

/-- An owner has no subprogram of the program inside it that contains the address. -/
theorem Nested.eq_of_suffix (hn : p.Nested path') (hs : s :: path <:+ path')
    (hx : s.Owns x) (hx' : ∀ t ∈ path', t.Contains x) : s :: path = path' := by
  obtain ⟨front, rfl⟩ := hs
  rcases List.eq_nil_or_concat' front with rfl | ⟨front, u, rfl⟩
  · rfl
  · rw [List.append_assoc] at hn hx'
    -- The path would go on into a procedure of `s` that contains the address.
    exact absurd (hx' u (by simp)) (hx.2 u (Nested.drop hn).mem_inner)

/-- **Every address has one owner**, and is reached by one nest of subprograms. -/
theorem Nested.eq_of_owns (hn : p.Nested (s :: path)) (hn' : p.Nested (t :: path'))
    (hs : s.Owns x) (ht : t.Owns x) : s :: path = t :: path' := by
  have hx : ∀ u ∈ s :: path, u.Contains x := by
    intro u hu
    rcases List.mem_cons.1 hu with rfl | hu
    · exact hs.1
    · exact hn.contains hs.1 u hu
  have hx' : ∀ u ∈ t :: path', u.Contains x := by
    intro u hu
    rcases List.mem_cons.1 hu with rfl | hu
    · exact ht.1
    · exact hn'.contains ht.1 u hu
  rcases hn.comparable hn' hx hx' with h | h
  · exact hn'.eq_of_suffix h hs hx'
  · exact (hn.eq_of_suffix h ht hx).symm

end Program

end PL0
