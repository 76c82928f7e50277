import PL0.Proofs.Semantics.Visibility

/-!
# `Semantics.Image` — activations and the blocks that hold them

The block of an activation is determined by the values of its constants and variables
(`Subprogram.image`): they come first, in the order of declaration, and behind them come the entry
addresses of the procedures. A stack of blocks holds a stack of activations if it consists of their
images (`Holds`); assignments keep this (`Holds.set`), and so do blocks opened and closed.
-/

namespace PL0

open Static

/-! ## Blocks as images of activations -/

namespace Block

variable {b : Block} {i : Nat} {d : Decl}

/-- Constants and variables come first, procedures last. -/
theorem decls_cases (h : b.decls[i]? = some d) :
    d.first?.isSome = true ∧ b.data[i]? = some d ∨
      ∃ j q, i = b.data.length + j ∧ b.procedures[j]? = some q ∧ d = .procedure q := by
  unfold decls at h
  rcases Nat.lt_or_ge i b.data.length with hi | hi
  · rw [List.getElem?_append_left hi] at h
    refine Or.inl ⟨?_, h⟩
    rcases List.mem_append.1 (List.mem_of_getElem? h) with hd | hd
    · obtain ⟨c, -, rfl⟩ := List.mem_map.1 hd
      rfl
    · obtain ⟨x, -, rfl⟩ := List.mem_map.1 hd
      rfl
  · rw [List.getElem?_append_right hi, List.getElem?_map, Option.map_eq_some_iff] at h
    obtain ⟨q, hq, rfl⟩ := h
    exact Or.inr ⟨i - b.data.length, q, by omega, hq, rfl⟩

end Block

namespace Subprogram

variable {s : Subprogram} {F : Frame} {i : Nat} {d : Decl}

/-- The block of an activation: the values of its constants and variables, and behind them the entry
    addresses of its procedures. -/
def image (s : Subprogram) (F : Frame) : List Int :=
  s.block.data.map (fun d => F d.name) ++ s.inner.map fun t => (t.entry : Int)

/-- A constant or variable is in the slot of its declaration. -/
theorem image_data (hd : s.block.decls[i]? = some d) (hdata : d.first?.isSome = true) :
    (s.image F)[i]? = some (F d.name) := by
  rcases Block.decls_cases hd with ⟨-, hi⟩ | ⟨j, q, -, -, rfl⟩
  · have hlt : i < (s.block.data.map fun d => F d.name).length := by
      rw [List.length_map]
      exact (List.getElem?_eq_some_iff.1 hi).1
    unfold image
    rw [List.getElem?_append_left hlt, List.getElem?_map, hi]
    rfl
  · cases hdata

/-- To assign to a name is to write to its slot. -/
theorem image_set (hnd : (s.block.decls.map Decl.name).Nodup) (hd : s.block.decls[i]? = some d)
    (hdata : d.first?.isSome = true) (v : Int) :
    s.image (F.set d.name v) = (s.image F).set i v := by
  rcases Block.decls_cases hd with ⟨-, hi⟩ | ⟨j, q, -, -, rfl⟩
  · obtain ⟨hlt, rfl⟩ := List.getElem?_eq_some_iff.1 hi
    have hnd : (s.block.data.map Decl.name).Nodup := by
      unfold Block.decls at hnd
      rw [List.map_append] at hnd
      exact (List.nodup_append.1 hnd).1
    unfold image
    rw [List.set_append_left _ _ (by rwa [List.length_map])]
    congr 1
    -- No other declaration has this name, so no other slot changes.
    refine List.ext_getElem (by simp) fun j hj hj' => ?_
    rw [List.length_map] at hj
    rw [List.getElem_map, List.getElem_set, List.getElem_map]
    by_cases hij : i = j
    · subst hij
      simp [Frame.set]
    · have hne : s.block.data[j].name ≠ s.block.data[i].name := by
        intro heq
        have hget := List.inj_on_of_nodup_map hnd (List.getElem_mem hj) (List.getElem_mem hlt) heq
        exact hij (hnd.of_map.getElem_inj_iff.1 hget).symm
      rw [if_neg hij]
      simp [Frame.set, hne]
  · cases hdata

/-- The values at first. -/
theorem image_first (hnd : (s.block.decls.map Decl.name).Nodup) :
    s.image (Frame.first s.block.decls) =
      s.block.consts.map (·.value.value) ++ List.replicate s.block.vars.length 0 ++
        s.inner.map fun t => (t.entry : Int) := by
  have hfirst : ∀ d ∈ s.block.data, Frame.first s.block.decls d.name = d.first?.getD 0 := by
    intro d hd
    obtain ⟨i, hi⟩ := List.getElem?_of_mem (List.mem_append_left (s.block.procedures.map
      Decl.procedure) hd)
    unfold Frame.first
    rw [upTo_getElem hnd (i := i) hi]
  unfold image
  rw [List.map_congr_left hfirst]
  unfold Block.data
  rw [List.map_append, List.map_map, List.map_map]
  congr 2
  rw [← List.map_const']
  rfl

end Subprogram

/-- A procedure and what is known of its subprogram. -/
theorem declared_getElem (env : Environment) (front : List Decl) (a : Nat) {ps : List Procedure}
    {j : Nat} {q : Procedure} (hq : ps[j]? = some q) :
    ∃ t, (Subprogram.declared env (Scope.ofDecls front) a ps)[j]? = some t ∧
      t.name = some q.name ∧ t.block = q.block ∧
      t.outer = env.nest (Scope.ofDecls (front ++ (ps.map .procedure).take (j + 1))) := by
  induction ps generalizing front a j with
  | nil => cases hq
  | cons p ps ih =>
    -- The scope grows by one procedure at a time, as the list of declarations does.
    have hgrow : (Scope.ofDecls front).declareProcedure p =
        Scope.ofDecls (front ++ [.procedure p]) := by
      rw [Scope.ofDecls_append]
      rfl
    unfold Subprogram.declared
    rw [hgrow]
    cases j with
    | zero =>
      cases hq
      exact ⟨_, rfl, rfl, rfl, rfl⟩
    | succ j =>
      obtain ⟨t, ht, hname, hblock, houter⟩ := ih (front ++ [.procedure p]) (a + p.codeSize) hq
      refine ⟨t, ht, hname, hblock, houter.trans ?_⟩
      rw [List.append_assoc]
      rfl

/-- **A procedure of a block** has its entry address in the slot of its declaration, and what it
    sees are the declarations up to its own. -/
theorem Subprogram.exists_inner {s : Subprogram} {i : Nat} {q : Procedure}
    (hd : s.block.decls[i]? = some (.procedure q)) :
    ∃ t ∈ s.inner, t.block = q.block ∧
      t.outer = s.outer.nest (Scope.ofDecls (s.block.decls.take (i + 1))) ∧
      ∀ F, (s.image F)[i]? = some (t.entry : Int) := by
  rcases Block.decls_cases hd with ⟨hdata, -⟩ | ⟨j, q', rfl, hq, heq⟩
  · cases hdata
  · cases heq
    obtain ⟨t, ht, -, hblock, houter⟩ := declared_getElem s.outer s.block.data
      s.proceduresStart hq
    rw [← Block.dataScope_eq] at ht
    have hinner : s.inner[j]? = some t := ht
    refine ⟨t, List.mem_of_getElem? hinner, hblock, ?_, fun F => ?_⟩
    · rw [houter, Nat.add_assoc, Block.decls, List.take_length_add_append]
    · unfold image
      rw [List.getElem?_append_right (by rw [List.length_map]; exact Nat.le_add_right _ _),
        List.length_map, Nat.add_sub_cancel_left, List.getElem?_map, hinner]
      rfl

/-! ## States that hold the same -/

/-- What is seen of a state from outside: the input not yet taken, and the output. -/
def Observed (st : State) (store : Store) : Prop :=
  st.input = store.input ∧ st.output = store.output

/-- The blocks hold the activations of the subprograms of the path. -/
structure Holds (path : List Subprogram) (st : State) (store : Store) : Prop where
  length : st.frames.length = path.length
  blocks : store.memory.blocks = List.zipWith Subprogram.image path st.frames
  observed : Observed st store

namespace Store

variable {store : Store} {k i : Nat} {block : List Int} {v : Int}

theorem fetch_of_slot (hb : store.memory.blocks[k]? = some block) (hv : block[i]? = some v) :
    Store.fetch k i store = .ok v store := by
  have hcell : store.memory.cell k i = some (.slot k i v) :=
    Memory.cell_eq_slot_iff.2 ⟨rfl, rfl, block, hb, hv⟩
  simp only [Store.fetch, hcell]

theorem put_of_slot (hb : store.memory.blocks[k]? = some block) (hi : i < block.length) :
    Store.put k i v store = .ok () { store with memory := store.memory.set k i v } := by
  have hcell : store.memory.cell k i = some (.slot k i block[i]) :=
    Memory.cell_eq_slot_iff.2 ⟨rfl, rfl, block, hb, List.getElem?_eq_getElem hi⟩
  simp only [Store.put, hcell]

end Store

namespace Holds

variable {path : List Subprogram} {st : State} {store : Store} {s : Subprogram} {k i : Nat}

/-- At each level there is an activation, and its block. -/
theorem level (h : Holds path st store) (hs : path[k]? = some s) :
    ∃ F, st.frames[k]? = some F ∧ store.memory.blocks[k]? = some (s.image F) := by
  have hk : k < st.frames.length := by
    rw [h.length]
    exact (List.getElem?_eq_some_iff.1 hs).1
  refine ⟨st.frames[k], List.getElem?_eq_getElem hk, ?_⟩
  rw [h.blocks, List.getElem?_zipWith, hs, List.getElem?_eq_getElem hk]

theorem modify_image {frames : List Frame} (hs : path[k]? = some s) {f : Frame → Frame}
    {g : List Int → List Int} (hfg : ∀ F, s.image (f F) = g (s.image F)) :
    (List.zipWith Subprogram.image path frames).modify k g =
      List.zipWith Subprogram.image path (frames.modify k f) := by
  induction path generalizing frames k with
  | nil => cases hs
  | cons t path ih =>
    cases frames with
    | nil => simp
    | cons F frames =>
      cases k with
      | zero =>
        cases hs
        simp [hfg]
      | succ k => simp [ih hs]

/-- An assignment on both sides. -/
theorem set (h : Holds path st store) (hs : path[k]? = some s)
    (hnd : (s.block.decls.map Decl.name).Nodup) {d : Decl} (hd : s.block.decls[i]? = some d)
    (hdata : d.first?.isSome = true) (v : Int) :
    Holds path { st with frames := st.frames.modify k (·.set d.name v) }
      { store with memory := store.memory.set k i v } where
  length := by
    rw [List.length_modify]
    exact h.length
  blocks := by
    show store.memory.blocks.modify k (·.set i v) = _
    rw [h.blocks]
    exact modify_image hs fun F => Subprogram.image_set hnd hd hdata v
  observed := h.observed

/-- The channels lie right below the blocks. -/
theorem length_blocks (h : Holds path st store) : store.memory.blocks.length = path.length := by
  rw [h.blocks, List.length_zipWith, h.length, Nat.min_self]

theorem input_cell (h : Holds path st store) : store.memory.cell path.length 0 = some .input := by
  rw [← h.length_blocks]
  exact store.memory.cell_length 0

theorem output_cell (h : Holds path st store) : store.memory.cell path.length 1 = some .output := by
  rw [← h.length_blocks]
  exact store.memory.cell_length 1

end Holds

end PL0
