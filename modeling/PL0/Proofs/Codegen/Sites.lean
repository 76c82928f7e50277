import PL0.Proofs.Codegen.Balance
import PL0.Proofs.Codegen.Names

/-!
# `Codegen.Sites` — what lies at an address

Every address of a program belongs to a subprogram (`Program.exists_owner`), and what lies there is
one of six things (`Site`): the `INT` or the final `OPR 0 0`, a literal or the store of a constant
or of an entry address, the jump over a procedure, or an instruction of the statement part.

Main statements: `Program.Nested.site` gives the case of an address; what follows from it are the
ways on from an instruction, to the next address (`Program.Nested.owns_succ`) or by a jump
(`Program.Nested.target_spec`), both within the subprogram.
-/

namespace PL0

open Codegen

/-! ## Owners -/

namespace Subprogram

variable {s t : Subprogram} {x : Nat}

theorem entry_lt_stop (s : Subprogram) : s.entry < s.stop := by
  rw [stop_eq]
  unfold last bodyStart proceduresStart
  omega

theorem entry_lt_bodyStart (s : Subprogram) : s.entry < s.bodyStart := by
  unfold bodyStart proceduresStart
  omega

theorem bodyStart_le_last (s : Subprogram) : s.bodyStart ≤ s.last := Nat.le_add_right _ _

/-- The procedures lie between the constants and the statement part. -/
theorem inner_between (ht : t ∈ s.inner) :
    s.proceduresStart + 3 ≤ t.entry ∧ t.stop ≤ s.bodyStart := by
  obtain ⟨hlo, hhi, -⟩ := declared_spec ht
  exact ⟨hlo, hhi⟩

theorem owns_entry (s : Subprogram) : s.Owns s.entry := by
  refine ⟨⟨Nat.le_refl _, s.entry_lt_stop⟩, fun t ht hx => ?_⟩
  have hlo := (inner_within ht).1
  have := hx.1
  omega

/-- The addresses of the statement part and that of the final `OPR 0 0` are owned. -/
theorem owns_body (hlo : s.bodyStart ≤ x) (hhi : x ≤ s.last) : s.Owns x := by
  refine ⟨⟨?_, ?_⟩, fun t ht hx => ?_⟩
  · have := s.entry_lt_bodyStart
    omega
  · rw [stop_eq]
    omega
  · have hstop := (inner_between ht).2
    have := hx.2
    omega

/-- The address behind a procedure is owned. -/
theorem owns_stop (ht : t ∈ s.inner) : s.Owns t.stop := by
  have hlt := t.entry_lt_stop
  obtain ⟨hlo, hhi⟩ := inner_within ht
  refine ⟨⟨by omega, hhi⟩, fun u hu hx => ?_⟩
  obtain ⟨hu1, hu2⟩ := hx
  by_cases hut : t = u
  · subst hut
    omega
  · rcases apart_of_ne ht hu hut with h | h
    · omega
    · omega

/-- The three addresses in front of a procedure are owned. -/
theorem owns_before (ht : t ∈ s.inner) (hlo : t.entry ≤ x + 3) (hhi : x < t.entry) :
    s.Owns x := by
  have hlt := t.entry_lt_stop
  obtain ⟨hin, hstop⟩ := inner_within ht
  refine ⟨⟨by omega, by omega⟩, fun u hu hx => ?_⟩
  obtain ⟨hu1, hu2⟩ := hx
  by_cases hut : t = u
  · subst hut
    omega
  · rcases apart_of_ne ht hu hut with h | h
    · omega
    · omega

/-- An address within a subprogram is owned by it or lies in one of its procedures. -/
theorem owns_or_contains (hx : s.Contains x) : s.Owns x ∨ ∃ t ∈ s.inner, t.Contains x := by
  by_cases h : ∃ t ∈ s.inner, t.Contains x
  · exact Or.inr h
  · exact Or.inl ⟨hx, fun t ht htx => h ⟨t, ht, htx⟩⟩

/-- The places of an owned address. -/
theorem Owns.cases (hx : s.Owns x) :
    x = s.entry ∨ (s.entry < x ∧ x < s.proceduresStart) ∨
      (∃ t ∈ s.inner, x < t.entry ∧ t.entry ≤ x + 3) ∨ (s.bodyStart ≤ x ∧ x < s.last) ∨
      x = s.last := by
  obtain ⟨⟨hlo, hhi⟩, hout⟩ := hx
  rw [stop_eq] at hhi
  rcases Nat.lt_or_ge x s.proceduresStart with hx | hx
  · omega
  · rcases Nat.lt_or_ge x s.bodyStart with hb | hb
    · obtain ⟨t, ht, hlo, hhi⟩ := exists_declared s.outer s.block.dataScope hx hb
      -- Not inside the procedure, so among the three addresses in front of it.
      refine Or.inr (Or.inr (Or.inl ⟨t, ht, ?_, hlo⟩))
      by_contra hge
      exact hout t ht ⟨by omega, hhi⟩
    · omega

end Subprogram

namespace Program

variable {p : Program} {s : Subprogram} {path : List Subprogram} {x : Nat}

theorem exists_owner_of_contains (n : Nat) (hn : p.Nested (s :: path)) (hx : s.Contains x)
    (hsize : s.stop - s.entry ≤ n) : ∃ t path, p.Nested (t :: path) ∧ t.Owns x := by
  -- By induction on the size of the range, which shrinks with every procedure entered.
  induction n generalizing s path with
  | zero =>
    have := s.entry_lt_stop
    omega
  | succ n ih =>
    rcases Subprogram.owns_or_contains hx with h | ⟨t, ht, htx⟩
    · exact ⟨s, path, hn, h⟩
    · refine ih (.inner hn ht) htx ?_
      have := Subprogram.inner_within ht
      have := t.entry_lt_stop
      omega

/-- **Every address of a program has an owner.** -/
theorem exists_owner {code : Array Instruction} (hc : p.compile.1 = .ok code)
    (hx : x < code.size) : ∃ t path, p.Nested (t :: path) ∧ t.Owns x := by
  refine exists_owner_of_contains _ .main ⟨Nat.zero_le _, ?_⟩ (Nat.le_refl _)
  rwa [size_of_compile hc]

end Program

/-! ## Sites -/

/-- What lies at an address that the subprogram owns. -/
inductive Site (s : Subprogram) (x : Nat) : Instruction → Prop where
  | opening : x = s.entry → Site s x (.make .int 0 s.block.scope.size)
  /-- The value of a constant or the entry address of a procedure. -/
  | literal (n : Int) : s.entry < x → x < s.bodyStart → Site s x (.make .lit 0 n)
  | define {slot : Nat} : s.entry < x → x < s.bodyStart → slot < s.block.scope.size →
      Site s x (.make .sto 0 (slot : Int))
  | skip {t : Subprogram} : t ∈ s.inner → x + 1 = t.entry →
      Site s x (.make .jmp 0 (t.stop : Int))
  | body {i : Instruction} {bs : List Instruction} :
      s.block.body.code s.scopes s.bodyStart = .ok bs → s.bodyStart ≤ x → x < s.last →
      bs[x - s.bodyStart]? = some i → Site s x i
  | closing : x = s.last → Site s x .leave

theorem mem_constsCode {ds : List ConstDecl} {sc : Scope} {is : List Instruction}
    (h : constsCode sc ds = .ok is) {final : Scope} (hsound : final.Sound)
    (hext : final.Extends (ds.foldl Scope.declareConst sc)) :
    ∀ i ∈ is, (∃ n, i = .make .lit 0 n) ∨
      ∃ slot : Nat, slot < final.size ∧ i = .make .sto 0 (slot : Int) := by
  induction ds generalizing sc is with
  | nil =>
    cases pure_eq_ok_iff.1 h
    exact fun _ hi => absurd hi List.not_mem_nil
  | cons d ds ih =>
    obtain ⟨is, his, js, hjs, rfl⟩ := constsCode_cons_eq_ok_iff.1 h
    obtain ⟨-, rfl⟩ := constCode_eq_ok_iff.1 his
    have hget : final.get? d.name.name = _ :=
      (hext.trans (Scope.extends_consts ds _)).get? (Scope.get?_declare sc d.name.name _ _)
    intro i hi
    simp only [List.mem_append, List.mem_cons, List.not_mem_nil, or_false] at hi
    rcases hi with (rfl | rfl) | hi
    · exact Or.inl ⟨_, rfl⟩
    · exact Or.inr ⟨_, hsound.slot_lt hget, rfl⟩
    · exact ih hjs hext i hi

namespace Subprogram

variable {s t : Subprogram} {x : Nat}

/-- A procedure has its slot in the scope of the subprogram around it. -/
theorem extends_outer (ht : t ∈ s.inner) : s.block.scope.Extends t.outer.current := by
  obtain ⟨-, -, sc, houter, -, hext, -⟩ := declared_spec ht
  rw [houter, Environment.current_nest]
  exact hext

namespace Placed

variable {code : Array Instruction} {i : Instruction}

/-- A constant and its store. -/
theorem site_consts (h : s.Placed code) (hlo : s.entry < x) (hhi : x < s.proceduresStart)
    (hi : code[x]? = some i) : Site s x i := by
  obtain ⟨cs, hcs, hl⟩ := h.consts
  have hlength : x < s.entry + 1 + cs.length := by
    rwa [length_constsCode hcs]
  have hmem : i ∈ cs := List.mem_of_getElem? ((hl.getElem?_sub hlo hlength).trans hi)
  -- The slot is one of the finished scope, as declarations to come leave it where it is.
  have hext : s.block.scope.Extends (s.block.consts.foldl Scope.declareConst Scope.empty) :=
    s.block.extends_dataScope.trans (Scope.extends_vars s.block.vars _)
  have hbody : x < s.bodyStart := Nat.lt_of_lt_of_le hhi (Nat.le_add_right _ _)
  rcases mem_constsCode hcs s.block.sound_scope hext i hmem with ⟨n, rfl⟩ | ⟨slot, hslot, rfl⟩
  · exact .literal n hlo hbody
  · exact .define hlo hbody hslot

/-- In front of a procedure: its entry address, stored, and the jump over it. -/
theorem site_header (h : s.Placed code) (ht : t ∈ s.inner) (hhi : x < t.entry)
    (hlo : t.entry ≤ x + 3) (hi : code[x]? = some i) : Site s x i := by
  obtain ⟨a, y, sym, hentry, -, hsym, hlit, hsto, hjmp⟩ := (h.inner ht).2
  obtain ⟨hfirst, hstop⟩ := Subprogram.inner_between ht
  have hstart : s.entry < x := by
    unfold Subprogram.proceduresStart at hfirst
    omega
  have hbody : x < s.bodyStart := by
    have := t.entry_lt_stop
    omega
  have hslot : sym.slot < s.block.scope.size :=
    s.block.sound_scope.slot_lt ((Subprogram.extends_outer ht).get? hsym)
  obtain rfl | rfl | rfl : x = a ∨ x = a + 1 ∨ x = a + 2 := by omega
  · cases hlit.symm.trans hi
    exact .literal _ hstart hbody
  · cases hsto.symm.trans hi
    exact .define hstart hbody hslot
  · cases hjmp.symm.trans hi
    exact .skip ht hentry.symm

theorem site_body (h : s.Placed code) (hlo : s.bodyStart ≤ x) (hhi : x < s.last)
    (hi : code[x]? = some i) : Site s x i := by
  obtain ⟨bs, hbs, hl⟩ := h.body
  have hlength : x < s.bodyStart + bs.length := by
    rwa [Statement.length_code hbs]
  exact .body hbs hlo hhi ((hl.getElem?_sub hlo hlength).trans hi)

end Placed

end Subprogram

namespace Program

variable {p : Program} {code : Array Instruction} {s t : Subprogram} {path : List Subprogram}
  {x : Nat} {i : Instruction}

/-- **What lies at an owned address.** -/
theorem Nested.site (hc : p.compile.1 = .ok code) (hn : p.Nested (s :: path)) (hx : s.Owns x)
    (hi : code[x]? = some i) : Site s x i := by
  have hplaced := hn.placed hc s (List.mem_cons_self ..)
  rcases hx.cases with rfl | ⟨hlo, hhi⟩ | ⟨t, ht, hlt, hle⟩ | ⟨hlo, hhi⟩ | rfl
  · cases hplaced.opening.symm.trans hi
    exact .opening rfl
  · exact hplaced.site_consts hlo hhi hi
  · exact hplaced.site_header ht hlt hle hi
  · exact hplaced.site_body hlo hhi hi
  · cases hplaced.closing.symm.trans hi
    exact .closing rfl

/-! ## The ways on -/

/-- Jumps carry their targets. -/
theorem Nested.target?_of_jump (hc : p.compile.1 = .ok code) (hn : p.Nested (s :: path))
    (hx : s.Owns x) (hi : code[x]? = some i) (hop : i.op = .jmp ∨ i.op = .jpc) :
    ∃ target, i.target? = some target ∧ i.offset = .number target := by
  cases hn.site hc hx hi with
  | opening _ => rcases hop with h | h <;> cases h
  | literal n _ _ => rcases hop with h | h <;> cases h
  | define _ _ _ => rcases hop with h | h <;> cases h
  | skip _ _ => exact ⟨_, rfl, rfl⟩
  | body hbs _ _ hget =>
    have hplain := Statement.plain_code hbs i (List.mem_of_getElem? hget)
    obtain ⟨n, hn⟩ := hplain.eq_make_of_jump hop
    rcases hop with h | h
    · rw [hn, h]
      exact ⟨n, rfl, rfl⟩
    · rw [hn, h]
      exact ⟨n, rfl, rfl⟩
  | closing _ => rcases hop with h | h <;> cases h

/-- **The next address** is owned too, unless the instruction is a jump or the last one. -/
theorem Nested.owns_succ (hc : p.compile.1 = .ok code) (hn : p.Nested (s :: path)) (hx : s.Owns x)
    (hi : code[x]? = some i) (hjmp : i.op ≠ .jmp) (hleave : i ≠ .leave) : s.Owns (x + 1) := by
  have hplaced := hn.placed hc s (List.mem_cons_self ..)
  have hlast : x ≠ s.last := by
    rintro rfl
    rw [hplaced.closing] at hi
    exact hleave (Option.some.inj hi).symm
  obtain ⟨⟨hlo, hhi⟩, hout⟩ := hx
  rw [Subprogram.stop_eq] at hhi
  refine ⟨⟨by omega, by rw [Subprogram.stop_eq]; omega⟩, fun t ht hxt => ?_⟩
  -- The address behind an owned one is in a procedure only as its entry, behind the jump over it.
  have hentry : t.entry = x + 1 := by
    have h1 := hxt.1
    have h2 := hxt.2
    by_contra hne
    exact hout t ht ⟨by omega, by omega⟩
  obtain ⟨h, y, sym, he, -, -, -, -, hj⟩ := (hplaced.inner ht).2
  have hxh : x = h + 2 := by omega
  rw [hxh, hj] at hi
  cases hi
  exact hjmp rfl

theorem Nested.heightAt_bodyStart (hc : p.compile.1 = .ok code) (hn : p.Nested (s :: path)) :
    heightAt code s.bodyStart = 0 := by
  have hplaced := hn.placed hc s (List.mem_cons_self ..)
  -- The `INT`, the constants and the procedures each lead from height 0 to height 0.
  have hentry : heightAt code s.entry = 0 :=
    (pops_le_heightAt hc hplaced.opening).2 rfl
  have hfirst : heightAt code (s.entry + 1) = 0 := by
    rw [heightAt_succ hplaced.opening, hentry]
    rfl
  obtain ⟨cs, hcs, hcl⟩ := hplaced.consts
  have hprocs : heightAt code s.proceduresStart = 0 := by
    have := heightAt_add hcl hfirst (balanced_constsCode hcs)
    rwa [length_constsCode hcs] at this
  obtain ⟨ps, hps, hpl⟩ := hplaced.procedures
  have := heightAt_add hpl hprocs (Procedure.balanced_codes hps)
  rwa [Procedure.length_codes hps] at this

/-- The height behind a subprogram. -/
theorem Nested.heightAt_stop (hc : p.compile.1 = .ok code) (hn : p.Nested (s :: path)) :
    heightAt code s.stop = 0 := by
  have hplaced := hn.placed hc s (List.mem_cons_self ..)
  have hlast : heightAt code s.last = 0 := (pops_le_heightAt hc hplaced.closing).2 rfl
  rw [Subprogram.stop_eq, heightAt_succ hplaced.closing, hlast]
  rfl

/-- **A jump leads to an address of the same subprogram** of height 0, behind its `INT`. -/
theorem Nested.target_spec (hc : p.compile.1 = .ok code) (hn : p.Nested (s :: path))
    (hx : s.Owns x) (hi : code[x]? = some i) {target : Int} (ht : i.target? = some target) :
    ∃ y : Nat, target = y ∧ s.Owns y ∧ s.entry < y ∧ heightAt code y = 0 := by
  cases hn.site hc hx hi with
  | opening _ => cases ht
  | literal n _ _ => cases ht
  | define _ _ _ => cases ht
  | @skip t hmem _ =>
    cases ht
    have hin := Subprogram.inner_within hmem
    have hlt := t.entry_lt_stop
    have hheight := (Nested.inner hn hmem).heightAt_stop hc
    exact ⟨t.stop, rfl, Subprogram.owns_stop hmem, by omega, hheight⟩
  | body hbs hlo hhi hget =>
    obtain ⟨front, back, rfl, hb, rfl⟩ :=
      Statement.closed_code hbs i (List.mem_of_getElem? hget) target ht
    -- A jump of the statement part lands in it or right behind it, all of which `s` owns.
    obtain ⟨bs', hbs', hl⟩ := (hn.placed hc s (List.mem_cons_self ..)).body
    rw [hbs] at hbs'
    cases hbs'
    have hlen := Statement.length_code hbs
    rw [List.length_append] at hlen
    refine ⟨s.bodyStart + front.length, rfl, Subprogram.owns_body ?_ ?_, ?_, ?_⟩
    · exact Nat.le_add_right _ _
    · unfold Subprogram.last
      omega
    · have := s.entry_lt_bodyStart
      omega
    · exact heightAt_add hl.left (hn.heightAt_bodyStart hc) hb
  | closing _ => cases ht

end Program

end PL0
