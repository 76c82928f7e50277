import PL0.Proofs.Semantics.Leveled
import PL0.Proofs.Semantics.Static

/-!
# `Semantics.Visibility` — what is visible, and the scopes of code generation

The scopes that are open at a place are those of the declarations visible there, list by list
(`Scope.ofDecls`). If no list declares a name twice, a name has the slot of its position, and it
leads to the same declaration in both (`Visible.meaning_cases`).
-/

namespace PL0

open Static

/-! ## Declarations

A declaration of the text, and what a scope remembers of it. -/

namespace Decl

/-- What a scope keeps of the kind of a declaration. -/
def kind : Decl → SymbolKind
  | const _ => .const
  | var _ => .var
  | procedure _ => .procedure

/-- What a scope keeps of the value of a declaration. -/
def value? : Decl → Option Int
  | const d => some d.value.value
  | var _ => none
  | procedure _ => none

/-- Constants and variables have a first value, procedures have none. -/
theorem kind_ne_procedure_iff {d : Decl} : d.kind ≠ .procedure ↔ d.first?.isSome = true := by
  cases d <;> simp [kind, first?]

/-- What is kept as a procedure is one. -/
theorem exists_of_kind {d : Decl} (h : d.kind = .procedure) : ∃ q, d = procedure q := by
  cases d with
  | const d => cases h
  | var x => cases h
  | procedure q => exact ⟨q, rfl⟩

end Decl

namespace Scope

/-- The scope with one declaration more. -/
def declareDecl (s : Scope) (d : Decl) : Scope := (s.declare d.name d.kind d.value?).2

/-- The scope of a list of declarations. -/
def ofDecls (ds : List Decl) : Scope := ds.foldl declareDecl empty

/-- Declarations in turn, the later ones in the scope of the earlier. -/
theorem ofDecls_append (ds es : List Decl) :
    ofDecls (ds ++ es) = es.foldl declareDecl (ofDecls ds) := List.foldl_append

/-- A scope has the names of its declarations, even if some are declared twice. -/
theorem mem_names_ofDecls {ds : List Decl} {name : String} :
    name ∈ (ofDecls ds).names ↔ name ∈ ds.map Decl.name := by
  unfold ofDecls
  rw [mem_names_foldl (f := declareDecl) (g := Decl.name) fun s d => mem_names_declare s _ _ _]
  simp [names, empty]

end Scope

namespace Block

/-- The scope in which the procedures of a block are declared is that of its data. -/
theorem dataScope_eq (b : Block) : b.dataScope = Scope.ofDecls b.data := by
  unfold dataScope Scope.ofDecls data
  rw [List.foldl_append, List.foldl_map, List.foldl_map]
  rfl

/-- The whole scope of a block is that of all its declarations. -/
theorem scope_eq (b : Block) : b.scope = Scope.ofDecls b.decls := by
  unfold scope decls
  rw [dataScope_eq, Scope.ofDecls_append, List.foldl_map]
  rfl

/-- The names of a block in the order of its declarations. -/
theorem names_eq (b : Block) : b.names = b.decls.map Decl.name := by
  simp [names, decls, data, Decl.name, Function.comp_def]

end Block

namespace Static

/-! ## One list of distinct declarations

Searching the text goes from the front and stops at the name; searching a scope finds the slot of
the name. If no name occurs twice, both are about the same position. -/

/-- Only a name that is not declared is missed. -/
theorem upTo_eq_none_iff {name : String} {ds : List Decl} :
    upTo name ds = none ↔ name ∉ ds.map Decl.name := by
  induction ds with
  | nil => simp [upTo]
  | cons d ds ih =>
    rw [upTo, List.map_cons, List.mem_cons]
    split
    · rename_i h
      simp [h]
    · rename_i h
      simp [ih, Ne.symm h]

/-- A declaration whose name is declared once is found at its position. -/
theorem upTo_getElem {ds : List Decl} (hnd : (ds.map Decl.name).Nodup) {i : Nat} {d : Decl}
    (hd : ds[i]? = some d) : upTo d.name ds = some (ds.take (i + 1), d) := by
  induction ds generalizing i with
  | nil => cases hd
  | cons e ds ih =>
    obtain ⟨hnot, hnd⟩ := List.nodup_cons.1 hnd
    cases i with
    | zero =>
      cases hd
      simp [upTo]
    | succ i =>
      have hmem : d.name ∈ ds.map Decl.name := List.mem_map_of_mem (List.mem_of_getElem? hd)
      have hne : e.name ≠ d.name := fun h => hnot (h ▸ hmem)
      simp [upTo, if_neg hne, ih hnd hd]

end Static

namespace Scope

/-- A name that is declared once has the slot of its position. -/
theorem get?_ofDecls {ds : List Decl} (hnd : (ds.map Decl.name).Nodup) :
    (ofDecls ds).size = ds.length ∧
      ∀ i d, ds[i]? = some d → (ofDecls ds).get? d.name = some ⟨d.kind, d.value?, i⟩ := by
  -- By induction from the back: the last name is new, and those in front keep their slots.
  induction ds using List.reverseRecOn with
  | nil => exact ⟨rfl, by simp⟩
  | append_singleton ds e ih =>
    rw [List.map_append, List.nodup_append] at hnd
    obtain ⟨hnd, -, hapart⟩ := hnd
    obtain ⟨hsize, hget⟩ := ih hnd
    have hnew : e.name ∉ (ofDecls ds).names := by
      rw [mem_names_ofDecls]
      exact fun he => hapart _ he _ (List.mem_singleton_self _) rfl
    have hgrow : ofDecls (ds ++ [e]) = ((ofDecls ds).declare e.name e.kind e.value?).2 :=
      ofDecls_append ds [e]
    have hdeclare : (ofDecls ds).declare e.name e.kind e.value? =
        (.fresh ⟨e.kind, e.value?, ds.length⟩,
          ⟨(ofDecls ds).symbols ++ [(e.name, ⟨e.kind, e.value?, ds.length⟩)]⟩) := by
      rw [declare_of_notMem hnew, hsize]
    rw [hgrow]
    constructor
    · rw [hdeclare]
      show ((ofDecls ds).symbols ++ [_]).length = _
      rw [List.length_append, List.length_append]
      exact congrArg (· + 1) hsize
    · intro i d hd
      rcases Nat.lt_or_ge i ds.length with hi | hi
      -- In front of the last one nothing has moved.
      · rw [List.getElem?_append_left hi] at hd
        exact (extends_declare _ _ _ _).get? (hget i d hd)
      · obtain ⟨hi', rfl⟩ := List.getElem?_eq_some_iff.1 hd
        have hi' : i = ds.length := by
          rw [List.length_append, List.length_singleton] at hi'
          omega
        subst hi'
        rw [List.getElem_concat_length rfl, get?_declare, hdeclare]
        rfl

end Scope

/-! ## All that is visible

List by list outward, the level grows by one in both searches. -/

namespace Static

/-- **A name leads to the declaration that it means**, or to nothing where it means nothing. -/
theorem Visible.meaning_cases {visible : Visible} {x : Ident} (hx : x.Ordinary)
    (hnd : ∀ ds ∈ visible, (ds.map Decl.name).Nodup) (n : Nat) :
    match visible.meaning? x.name with
    | some m => ∃ ds i, visible[m.level]? = some ds ∧ ds[i]? = some m.decl ∧
        m.decl.name = x.name ∧ m.scope = ds.take (i + 1) :: visible.drop (m.level + 1) ∧
        Environment.resolveIn x.name n (visible.map Scope.ofDecls ++ [Scope.channels]) =
          some ⟨n + m.level, ⟨m.decl.kind, m.decl.value?, i⟩⟩
    | none =>
      Environment.resolveIn x.name n (visible.map Scope.ofDecls ++ [Scope.channels]) = none := by
  induction visible generalizing n with
  | nil =>
    simp [meaning?, Environment.resolveIn, hx.channels_get?]
  | cons ds outer ih =>
    have hds := hnd ds (List.mem_cons_self ..)
    rw [List.map_cons, List.cons_append, Environment.resolveIn]
    -- Either this list declares the name, in one place, or both searches go on outward.
    by_cases hmem : x.name ∈ ds.map Decl.name
    · obtain ⟨d, hd, hname⟩ := List.mem_map.1 hmem
      obtain ⟨i, hi, rfl⟩ := List.getElem_of_mem hd
      have hget : ds[i]? = some ds[i] := List.getElem?_eq_getElem hi
      rw [meaning?, ← hname, upTo_getElem hds hget, (Scope.get?_ofDecls hds).2 i _ hget]
      exact ⟨ds, i, rfl, hget, rfl, rfl, rfl⟩
    · have hnone : (Scope.ofDecls ds).get? x.name = none := by
        rw [Scope.get?_eq_none_iff, Scope.mem_names_ofDecls]
        exact hmem
      rw [meaning?, upTo_eq_none_iff.2 hmem, hnone]
      have hrest := ih (fun es hes => hnd es (List.mem_cons_of_mem _ hes)) (n + 1)
      cases hm : meaning? x.name outer with
      | none =>
        rw [hm] at hrest
        exact hrest
      | some m =>
        rw [hm] at hrest
        obtain ⟨es, i, hes, hi, hname, hscope, hresolve⟩ := hrest
        refine ⟨es, i, hes, hi, hname, hscope, hresolve.trans ?_⟩
        rw [Nat.add_right_comm]
        rfl

end Static

end PL0
