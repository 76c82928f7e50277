import PL0.Proofs.Codegen.Emission

/-!
# `Codegen.Scope` — what declarations make of a scope

A scope only grows: a declaration leaves every name where it was (`Scope.Extends`). In the scopes
that blocks build, the slots are numbered in the order of declaration and no name has two
(`Scope.Sound`), so a block needs exactly as many slots as it declares distinct names
(`Block.size_scope`).
-/

namespace PL0

/-- The names that a block declares, in the order of their declarations. -/
def Block.names (b : Block) : List String :=
  b.consts.map (·.name.name) ++ b.vars.map (·.name) ++ b.procedures.map (·.name.name)

namespace Scope

variable {s t u : Scope} {x y : String} {kind : SymbolKind} {value : Option Int} {sym : Symbol}

/-- The names of a scope, oldest first. -/
def names (s : Scope) : List String := s.symbols.map (·.1)

/-! ## Growth

A symbol, once declared, is found in every later scope of the block, whatever is declared after it.
A second declaration of its name does not change it either. -/

/-- `t` holds all that `s` holds, and perhaps younger names. -/
def Extends (t s : Scope) : Prop := s.symbols <+: t.symbols

theorem Extends.refl (s : Scope) : s.Extends s := List.prefix_refl _

theorem Extends.trans (h : u.Extends t) (h' : t.Extends s) : u.Extends s :=
  List.IsPrefix.trans h' h

/-- A name keeps its symbol while the scope grows. -/
theorem Extends.get? (h : t.Extends s) (hx : s.get? x = some sym) : t.get? x = some sym := by
  obtain ⟨younger, hy⟩ := h
  unfold Scope.get? at *
  rw [← hy, List.lookup_append, hx]
  rfl

/-- A declaration adds a name or changes nothing. -/
theorem extends_declare (s : Scope) (x : String) (kind : SymbolKind) (value : Option Int) :
    (s.declare x kind value).2.Extends s := by
  unfold declare
  cases s.get? x with
  | some old => exact List.prefix_refl _
  | none => exact List.prefix_append _ _

/-- So do several declarations in turn; the three sections are cases of this. -/
theorem extends_foldl {α : Type} {f : Scope → α → Scope} (hf : ∀ s a, (f s a).Extends s)
    (as : List α) (s : Scope) : (as.foldl f s).Extends s := by
  induction as generalizing s with
  | nil => exact Extends.refl s
  | cons a as ih => exact (ih (f s a)).trans (hf s a)

theorem extends_consts (ds : List ConstDecl) (s : Scope) :
    (ds.foldl declareConst s).Extends s :=
  extends_foldl (f := declareConst) (fun s d => extends_declare s d.name.name _ _) ds s

theorem extends_vars (xs : List Ident) (s : Scope) : (xs.foldl declareVar s).Extends s :=
  extends_foldl (f := declareVar) (fun s x => extends_declare s x.name _ _) xs s

theorem extends_procedures (ps : List Procedure) (s : Scope) :
    (ps.foldl declareProcedure s).Extends s :=
  extends_foldl (f := declareProcedure) (fun s p => extends_declare s p.name.name _ _) ps s

/-! ## Slots

A new name gets the size of the scope as its slot. So the slots count up from 0 without a gap, and a
scope of a given size needs that many cells. -/

/-- The slots are numbered from 0 in the order of declaration, and no name is declared twice. -/
structure Sound (s : Scope) : Prop where
  slots : s.symbols.map (·.2.slot) = List.range s.size
  nodup : s.names.Nodup

theorem sound_empty : empty.Sound := ⟨rfl, List.nodup_nil⟩

/-- What is found is there. -/
theorem mem_of_get? (h : s.get? x = some sym) : (x, sym) ∈ s.symbols := by
  unfold get? at h
  obtain ⟨l₁, l₂, hl, -⟩ := List.lookup_eq_some_iff.1 h
  rw [hl]
  exact List.mem_append_right _ (List.mem_cons_self ..)

/-- A name is not found exactly if it has not been declared. -/
theorem get?_eq_none_iff : s.get? x = none ↔ x ∉ s.names := by
  unfold get? names
  rw [List.lookup_eq_none_iff]
  constructor
  · intro h hx
    obtain ⟨p, hp, rfl⟩ := List.mem_map.1 hx
    exact absurd (h p hp) (by simp)
  · intro h p hp
    have : p.1 ∈ s.symbols.map (·.1) := List.mem_map_of_mem hp
    simp only [bne_iff_ne, ne_eq]
    rintro rfl
    exact h this

theorem mem_names_of_get? (h : s.get? x = some sym) : x ∈ s.names :=
  List.mem_map_of_mem (f := (·.1)) (mem_of_get? h)

/-- A further symbol is found unless its name was there before. -/
theorem get?_append_singleton (s : Scope) (x y : String) (sym : Symbol) :
    (Scope.mk (s.symbols ++ [(y, sym)])).get? x =
      (s.get? x).or (if x = y then some sym else none) := by
  unfold get?
  rw [List.lookup_append]
  by_cases h : x = y
  · rw [h, if_pos rfl, List.lookup_cons_self]
  · rw [if_neg h, List.lookup, beq_false_of_ne h]
    rfl

/-- A name that is not there yet gets the next slot. -/
theorem declare_of_notMem (h : x ∉ s.names) (kind : SymbolKind) (value : Option Int) :
    s.declare x kind value =
      (.fresh ⟨kind, value, s.size⟩, ⟨s.symbols ++ [(x, ⟨kind, value, s.size⟩)]⟩) := by
  unfold declare
  rw [get?_eq_none_iff.2 h]

/-- The symbol that a declaration answers is the one that the scope then has for the name. -/
theorem get?_declare (s : Scope) (x : String) (kind : SymbolKind) (value : Option Int) :
    (s.declare x kind value).2.get? x = some (s.declare x kind value).1.symbol := by
  cases h : s.get? x with
  | some old =>
    rw [declare_of_get? h]
    exact h
  | none =>
    rw [declare_of_notMem (get?_eq_none_iff.1 h), get?_append_singleton, h, if_pos rfl]
    rfl

/-- A name is added once. -/
theorem names_declare (s : Scope) (x : String) (kind : SymbolKind) (value : Option Int) :
    (s.declare x kind value).2.names = if x ∈ s.names then s.names else s.names ++ [x] := by
  unfold declare
  cases h : s.get? x with
  | some old =>
    rw [if_pos (mem_names_of_get? h)]
  | none =>
    rw [if_neg (get?_eq_none_iff.1 h)]
    simp [names]

/-- **Declarations keep the slots numbered** and the names distinct. -/
theorem Sound.declare (h : s.Sound) (x : String) (kind : SymbolKind) (value : Option Int) :
    (s.declare x kind value).2.Sound := by
  constructor
  · unfold Scope.declare
    cases s.get? x with
    | some old => exact h.slots
    -- The next slot is the next number.
    | none => simp [h.slots, size, List.range_succ]
  · rw [names_declare]
    split
    · exact h.nodup
    · rename_i hx
      exact List.nodup_append.2 ⟨h.nodup, List.nodup_singleton x, by
        intro a ha b hb
        rw [List.mem_singleton.1 hb]
        rintro rfl
        exact hx ha⟩

theorem Sound.foldl {α : Type} {f : Scope → α → Scope} (hf : ∀ s a, s.Sound → (f s a).Sound)
    (as : List α) (h : s.Sound) : (as.foldl f s).Sound := by
  induction as generalizing s with
  | nil => exact h
  | cons a as ih => exact ih (hf s a h)

/-- A slot is a cell of the block, whose size is that of the scope. -/
theorem Sound.slot_lt (h : s.Sound) (hx : s.get? x = some sym) : sym.slot < s.size := by
  have hm : sym.slot ∈ s.symbols.map (·.2.slot) :=
    List.mem_map_of_mem (f := (·.2.slot)) (mem_of_get? hx)
  rw [h.slots] at hm
  exact List.mem_range.1 hm

/-- The names after several declarations are those before and those declared. -/
theorem mem_names_foldl {α : Type} {f : Scope → α → Scope} {g : α → String}
    (hf : ∀ s a, y ∈ (f s a).names ↔ y ∈ s.names ∨ y = g a) (as : List α) (s : Scope) :
    y ∈ (as.foldl f s).names ↔ y ∈ s.names ∨ y ∈ as.map g := by
  induction as generalizing s with
  | nil => simp
  | cons a as ih =>
    rw [List.foldl_cons, ih, hf, List.map_cons, List.mem_cons, or_assoc]

theorem mem_names_declare (s : Scope) (x : String) (kind : SymbolKind) (value : Option Int) :
    y ∈ (s.declare x kind value).2.names ↔ y ∈ s.names ∨ y = x := by
  rw [names_declare]
  split
  · rename_i hx
    constructor
    · exact Or.inl
    · rintro (h | rfl)
      · exact h
      · exact hx
  · simp

end Scope

namespace Block

theorem sound_dataScope (b : Block) : b.dataScope.Sound :=
  Scope.Sound.foldl (fun _ _ h => h.declare ..) _
    (Scope.Sound.foldl (fun _ _ h => h.declare ..) _ Scope.sound_empty)

/-- The scope that a block builds is sound, since it is built from the empty one by declarations. -/
theorem sound_scope (b : Block) : b.scope.Sound :=
  Scope.Sound.foldl (fun _ _ h => h.declare ..) _ b.sound_dataScope

theorem extends_dataScope (b : Block) : b.scope.Extends b.dataScope :=
  Scope.extends_procedures b.procedures b.dataScope

theorem mem_names_dataScope {b : Block} {x : String} : x ∈ b.dataScope.names ↔
    x ∈ b.consts.map (·.name.name) ++ b.vars.map (·.name) := by
  unfold dataScope
  rw [Scope.mem_names_foldl (f := Scope.declareVar) (g := fun x => x.name)
      (fun s x => Scope.mem_names_declare s _ _ _),
    Scope.mem_names_foldl (f := Scope.declareConst) (g := fun d => d.name.name)
      (fun s d => Scope.mem_names_declare s _ _ _)]
  simp [Scope.names, Scope.empty]

/-- The names of its scope are those that a block declares. -/
theorem mem_names_scope {b : Block} {x : String} : x ∈ b.scope.names ↔ x ∈ b.names := by
  unfold scope names
  rw [Scope.mem_names_foldl (f := Scope.declareProcedure) (g := fun p => p.name.name)
      (fun s p => Scope.mem_names_declare s _ _ _), mem_names_dataScope, ← List.mem_append]

/-- **A block needs a slot for each distinct name** declared in it. -/
theorem size_scope (b : Block) : b.scope.size = b.names.dedup.length := by
  -- Both lists have the same names and no name twice, so they are equally long; their orders need
  -- not agree.
  have hperm : b.scope.names.Perm b.names.dedup :=
    (List.perm_ext_iff_of_nodup b.sound_scope.nodup (List.nodup_dedup _)).2 fun x => by
      rw [List.mem_dedup, mem_names_scope]
  have hlen := hperm.length_eq
  unfold Scope.names at hlen
  rw [List.length_map] at hlen
  exact hlen

end Block

end PL0
