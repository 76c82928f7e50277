import PL0.Machine
import PL0.Proofs.Environment.History

/-!
# `Environment.Addressing` — scopes and blocks have the same addresses

Code is generated with levels counted in the scopes that are open, and runs with levels counted in
the blocks that are open. Where there is a block for each scope above the base scope, with a slot for
each name (`Memory.Fits`), both counts lead to the same places: the addresses of declarations are
those of cells, one for one, and all other addresses are invalid.

Main statement: `Environment.addresses_agree`, for all environments in which only the channels were
declared in the base scope (`Environment.Above`).
-/

namespace PL0

namespace Scope

variable {s : Scope} {x y : String} {sym sym' : Symbol} {i : Nat}

/-- A name stands at the position of its slot. -/
theorem Sound.get?_eq_some_iff (h : s.Sound) :
    s.get? x = some sym ↔ s.symbols[sym.slot]? = some (x, sym) := by
  have hslot {z : String} {t : Symbol} {j : Nat} (hj : s.symbols[j]? = some (z, t)) :
      t.slot = j := by
    have hj' : (s.symbols.map (·.2.slot))[j]? = some t.slot := by rw [List.getElem?_map, hj]; rfl
    rw [h.slots] at hj'
    exact (List.getElem?_eq_some_iff.1 hj').2.symm.trans (List.getElem_range _)
  have hmp {z : String} {t : Symbol} (hz : s.get? z = some t) :
      s.symbols[t.slot]? = some (z, t) := by
    obtain ⟨j, hj⟩ := List.mem_iff_getElem?.1 (mem_of_get? hz)
    rwa [hslot hj]
  refine ⟨hmp, fun hx => ?_⟩
  have hmem : x ∈ s.names := List.mem_map_of_mem (f := (·.1)) (List.mem_of_getElem? hx)
  cases hget : s.get? x with
  | none => exact absurd hmem (get?_eq_none_iff.1 hget)
  | some t =>
    -- The names are distinct, so the symbol found is the one at this position.
    have hname {j : Nat} {t : Symbol} (ht : s.symbols[j]? = some (x, t)) :
        s.names[j]? = some x := by
      unfold names
      rw [List.getElem?_map, ht]
      rfl
    have hlt := (List.getElem?_eq_some_iff.1 (hname hx)).1
    have heq := (List.getElem?_inj hlt h.nodup).1 ((hname hx).trans (hname (hmp hget)).symm)
    rw [heq, hmp hget] at hx
    cases hx
    rfl

theorem Sound.eq_of_slot (h : s.Sound) (hx : s.get? x = some sym) (hy : s.get? y = some sym')
    (hslot : sym.slot = sym'.slot) : x = y ∧ sym = sym' := by
  rw [h.get?_eq_some_iff] at hx hy
  rw [hslot, hy] at hx
  cases hx
  exact ⟨rfl, rfl⟩

theorem Sound.exists_slot (h : s.Sound) (hi : i < s.size) :
    ∃ x sym, s.get? x = some sym ∧ sym.slot = i := by
  have hslot : (s.symbols.map (·.2.slot))[i]? = some i := by
    rw [h.slots]
    exact List.getElem?_range hi
  rw [List.getElem?_map, Option.map_eq_some_iff] at hslot
  obtain ⟨⟨x, sym⟩, hget, hslot⟩ := hslot
  refine ⟨x, sym, h.get?_eq_some_iff.2 ?_, hslot⟩
  rwa [hslot]

theorem sound_channels : channels.Sound := ⟨rfl, by decide⟩

end Scope

/-! ## Cells and their places -/

namespace Memory

variable {m : Memory} {k k' : Nat} {o o' : Int} {c : Cell}

theorem channel?_eq_some_iff :
    channel? o = some c ↔ o = 0 ∧ c = .input ∨ o = 1 ∧ c = .output := by
  unfold channel?
  by_cases h0 : o = 0
  · subst h0
    simp [eq_comm]
  · by_cases h1 : o = 1
    · subst h1
      simp [eq_comm]
    · simp [h0, h1]

theorem slot?_eq_some_iff {block : List Int} {i : Nat} {v : Int} :
    slot? block o = some (i, v) ↔ o = i ∧ block[i]? = some v := by
  unfold slot?
  by_cases h0 : 0 ≤ o
  · rw [if_pos h0, Option.map_eq_some_iff]
    constructor
    · rintro ⟨w, hw, heq⟩
      cases heq
      exact ⟨(Int.toNat_of_nonneg h0).symm, hw⟩
    · rintro ⟨rfl, hv⟩
      exact ⟨v, hv, rfl⟩
  · rw [if_neg h0]
    constructor
    · rintro ⟨⟩
    · rintro ⟨rfl, -⟩
      omega

/-- **What an address denotes**: a slot of a block, or a channel right below the blocks. -/
theorem cell_eq_some_iff : m.cell k o = some c ↔
    (∃ i : Nat, ∃ v block, m.blocks[k]? = some block ∧ block[i]? = some v ∧ o = i ∧
      c = .slot k i v) ∨
    k = m.blocks.length ∧ (o = 0 ∧ c = .input ∨ o = 1 ∧ c = .output) := by
  by_cases hk : k = m.blocks.length
  · subst hk
    rw [cell_length, channel?_eq_some_iff]
    simp
  · unfold cell
    rw [if_neg hk, Option.bind_eq_bind, Option.bind_eq_some_iff]
    constructor
    · rintro ⟨block, hblock, hc⟩
      obtain ⟨⟨i, v⟩, hslot, hc⟩ := Option.bind_eq_some_iff.1 hc
      obtain ⟨ho, hv⟩ := slot?_eq_some_iff.1 hslot
      cases hc
      exact Or.inl ⟨i, v, block, hblock, hv, ho, rfl⟩
    · rintro (⟨i, v, block, hblock, hv, ho, rfl⟩ | ⟨heq, -⟩)
      · exact ⟨block, hblock, Option.bind_eq_some_iff.2
          ⟨(i, v), slot?_eq_some_iff.2 ⟨ho, hv⟩, rfl⟩⟩
      · exact absurd heq hk

/-- A cell has one address. -/
theorem cell_inj (h : m.cell k o = some c) (h' : m.cell k' o' = some c) : k = k' ∧ o = o' := by
  rw [cell_eq_some_iff] at h h'
  rcases h with ⟨i, v, b, -, -, rfl, rfl⟩ | ⟨rfl, ⟨rfl, rfl⟩ | ⟨rfl, rfl⟩⟩
  · rcases h' with ⟨i', v', b', -, -, rfl, hc⟩ | ⟨rfl, ⟨rfl, hc⟩ | ⟨rfl, hc⟩⟩
    · cases hc
      exact ⟨rfl, rfl⟩
    · cases hc
    · cases hc
  · rcases h' with ⟨i', v', b', -, -, rfl, hc⟩ | ⟨rfl, ⟨rfl, hc⟩ | ⟨rfl, hc⟩⟩
    · cases hc
    · exact ⟨rfl, rfl⟩
    · cases hc
  · rcases h' with ⟨i', v', b', -, -, rfl, hc⟩ | ⟨rfl, ⟨rfl, hc⟩ | ⟨rfl, hc⟩⟩
    · cases hc
    · cases hc
    · exact ⟨rfl, rfl⟩

/-- There is a block for each scope above the base scope, with a slot for each name. -/
def Fits (m : Memory) (env : Environment) : Prop :=
  List.Forall₂ (fun block s => block.length = s.size) m.blocks env.scopes

instance (m : Memory) (env : Environment) : Decidable (m.Fits env) :=
  inferInstanceAs (Decidable (List.Forall₂ _ _ _))

end Memory

namespace Environment

variable {env : Environment} {m : Memory} {k k' : Nat} {x y : String} {sym sym' : Symbol}

/-! ## Declarations and their addresses -/

/-- The scope `k` scopes outward declares `x`, whether `x` is visible or not. -/
def Declares (env : Environment) (k : Nat) (x : String) (sym : Symbol) : Prop :=
  ∃ s, env.frames[k]? = some s ∧ s.get? x = some sym

/-- Whether the call declares a name. -/
def Op.isDefine : Op → Bool
  | define _ => true
  | _ => false

/-- The calls declare names only above the base scope. -/
def Above (ops : List Op) : Prop :=
  ∀ i, (h : i < ops.length) → ops[i].isDefine = true → 0 < (initial.after (ops.take i)).depth

instance (ops : List Op) : Decidable (Above ops) :=
  inferInstanceAs (Decidable (∀ i, (h : i < ops.length) → ops[i].isDefine = true →
    0 < (initial.after (ops.take i)).depth))

/-- The scopes are sound, and the last one holds the channels and nothing else. -/
structure Orderly (env : Environment) : Prop where
  scopes : ∀ s ∈ env.scopes, s.Sound
  base : env.base = Scope.channels

theorem Above.init {ops : List Op} {op : Op} (h : Above (ops ++ [op])) : Above ops := by
  intro i hi hdefine
  have hi' : i < (ops ++ [op]).length := by
    rw [List.length_append]
    omega
  have hdepth := h i hi' (by rwa [List.getElem_append_left hi])
  rwa [List.take_append_of_le_length (Nat.le_of_lt hi)] at hdepth

theorem Above.last {ops : List Op} {op : Op} (h : Above (ops ++ [op])) (hop : op.isDefine = true) :
    0 < (initial.after ops).depth := by
  have hdepth := h ops.length (by simp) (by simpa using hop)
  rwa [List.take_left] at hdepth

theorem Above.orderly {ops : List Op} (h : Above ops) : (initial.after ops).Orderly where
  scopes := by
    intro s hs
    have hsteps := (inStep_initial.after ops).scopes
    obtain ⟨k, hk, rfl⟩ := List.getElem_of_mem hs
    exact (hsteps.get hk (hsteps.length_eq ▸ hk)).sound
  base := by
    induction ops using List.reverseRecOn with
    | nil => rfl
    | append_singleton ops op ih =>
      have hbase := ih h.init
      have hlast := h.last
      rw [after_concat]
      generalize initial.after ops = env at hbase hlast
      obtain ⟨scopes, base⟩ := env
      cases op with
      | enter => exact hbase
      | resolve name => exact hbase
      | exit => cases scopes <;> exact hbase
      | define e =>
        cases scopes with
        | nil => exact absurd (hlast rfl) (Nat.lt_irrefl 0)
        | cons s ss => exact hbase

theorem declares_iff (ho : env.Orderly) : env.Declares k x sym ↔
    (∃ s, env.scopes[k]? = some s ∧ s.get? x = some sym) ∨
      k = env.depth ∧ Scope.channels.get? x = some sym := by
  unfold Declares frames depth
  rw [ho.base]
  rcases Nat.lt_trichotomy k env.scopes.length with hlt | rfl | hgt
  · rw [List.getElem?_append_left hlt]
    simp [Nat.ne_of_lt hlt]
  · simp
  · rw [List.getElem?_append_right (Nat.le_of_lt hgt)]
    have hne : k - env.scopes.length ≠ 0 := by omega
    simp [hne, Nat.ne_of_gt hgt, List.getElem?_eq_none (Nat.le_of_lt hgt)]

/-- Declarations of one scope with one slot are the same. -/
theorem Orderly.eq_of_slot (ho : env.Orderly) (hx : env.Declares k x sym)
    (hy : env.Declares k y sym') (hslot : sym.slot = sym'.slot) : x = y := by
  obtain ⟨s, hs, hx⟩ := hx
  obtain ⟨t, ht, hy⟩ := hy
  cases hs.symm.trans ht
  have hsound : s.Sound := by
    rcases List.mem_append.1 (List.mem_of_getElem? hs) with hmem | hmem
    · exact ho.scopes s hmem
    · rw [List.mem_singleton.1 hmem, ho.base]
      exact Scope.sound_channels
  exact (hsound.eq_of_slot hx hy hslot).1

/-! ## Declarations and cells -/

section

variable (ho : env.Orderly) (hm : m.Fits env)
include ho hm

/-- **A declaration has its slot** in the block of its scope. -/
theorem Orderly.cell_scope {s : Scope} (hs : env.scopes[k]? = some s)
    (hx : s.get? x = some sym) : ∃ block v, m.blocks[k]? = some block ∧
      block[sym.slot]? = some v ∧ m.cell k sym.slot = some (.slot k sym.slot v) := by
  obtain ⟨hk, rfl⟩ := List.getElem?_eq_some_iff.1 hs
  have hk' : k < m.blocks.length := hm.length_eq ▸ hk
  have hsize : m.blocks[k].length = env.scopes[k].size := hm.get hk' hk
  have hlt : sym.slot < m.blocks[k].length :=
    hsize ▸ (ho.scopes _ (List.getElem_mem hk)).slot_lt hx
  have hblock := List.getElem?_eq_getElem hk'
  have hv := List.getElem?_eq_getElem hlt
  refine ⟨_, _, hblock, hv, Memory.cell_eq_some_iff.2 (Or.inl ?_)⟩
  exact ⟨sym.slot, _, _, hblock, hv, rfl, rfl⟩

omit ho in
/-- **The channels** lie right below the blocks. -/
theorem cell_channel (c : Cell) (o : Int) :
    m.cell env.depth o = some c ↔ o = 0 ∧ c = .input ∨ o = 1 ∧ c = .output := by
  have hdepth : env.depth = m.blocks.length := hm.length_eq.symm
  rw [hdepth, Memory.cell_length, Memory.channel?_eq_some_iff]

/-- **The addresses of cells are those of declarations.** -/
theorem Orderly.cell_iff {o : Int} :
    (∃ c, m.cell k o = some c) ↔ ∃ x sym, env.Declares k x sym ∧ o = sym.slot := by
  constructor
  · rintro ⟨c, hc⟩
    rcases Memory.cell_eq_some_iff.1 hc with
      ⟨i, v, block, hblock, hv, rfl, -⟩ | ⟨rfl, ⟨rfl, -⟩ | ⟨rfl, -⟩⟩
    · -- The slot is one of the scope of this block.
      obtain ⟨hk, rfl⟩ := List.getElem?_eq_some_iff.1 hblock
      have hk' : k < env.scopes.length := hm.length_eq ▸ hk
      have hsize : m.blocks[k].length = env.scopes[k].size := hm.get hk hk'
      have hi : i < env.scopes[k].size := hsize ▸ (List.getElem?_eq_some_iff.1 hv).1
      obtain ⟨x, sym, hx, rfl⟩ := (ho.scopes _ (List.getElem_mem hk')).exists_slot hi
      exact ⟨x, sym, (declares_iff ho).2 (Or.inl ⟨_, List.getElem?_eq_getElem hk', hx⟩), rfl⟩
    · exact ⟨_, _, (declares_iff ho).2 (Or.inr ⟨hm.length_eq, channels_readChannel⟩), rfl⟩
    · exact ⟨_, _, (declares_iff ho).2 (Or.inr ⟨hm.length_eq, channels_writeChannel⟩), rfl⟩
  · rintro ⟨x, sym, hx, rfl⟩
    rcases (declares_iff ho).1 hx with ⟨s, hs, hx'⟩ | ⟨rfl, hx'⟩
    · obtain ⟨_, v, _, _, hcell⟩ := ho.cell_scope hm hs hx'
      exact ⟨_, hcell⟩
    · rcases channels_get?_eq_some_iff.1 hx' with ⟨-, rfl⟩ | ⟨-, rfl⟩
      · exact ⟨.input, (cell_channel hm _ _).2 (Or.inl ⟨rfl, rfl⟩)⟩
      · exact ⟨.output, (cell_channel hm _ _).2 (Or.inr ⟨rfl, rfl⟩)⟩

end

/-- **Scopes and blocks agree on addresses.** -/
structure Agrees (env : Environment) (m : Memory) : Prop where
  /-- A name that leads to a scope above the base scope denotes its slot in the block there. -/
  resolved : ∀ name a s, env.resolve name = some a → env.scopes[a.level]? = some s →
    s.get? name = some a.symbol ∧
    ∃ block v, m.blocks[a.level]? = some block ∧ block[a.symbol.slot]? = some v ∧
      m.cell a.level a.symbol.slot = some (.slot a.level a.symbol.slot v)
  /-- Where no scope hides them, the names of the channels denote the channels. -/
  input : (∀ s ∈ env.scopes, s.get? readChannel = none) →
    ∃ a, env.resolve readChannel = some a ∧ m.cell a.level a.symbol.slot = some .input
  output : (∀ s ∈ env.scopes, s.get? writeChannel = none) →
    ∃ a, env.resolve writeChannel = some a ∧ m.cell a.level a.symbol.slot = some .output
  /-- Every declaration has a cell, visible or not. -/
  found : ∀ k x sym, env.Declares k x sym → ∃ c, m.cell k sym.slot = some c
  /-- Declarations with the same cell are the same. -/
  apart : ∀ k x sym k' y sym' c, env.Declares k x sym → env.Declares k' y sym' →
    m.cell k sym.slot = some c → m.cell k' sym'.slot = some c → k = k' ∧ x = y
  /-- Every slot belongs to one declaration. -/
  owned : ∀ k block i, m.blocks[k]? = some block → i < block.length →
    ∃! x, ∃ sym, env.Declares k x sym ∧ sym.slot = i
  /-- All other addresses are invalid, to loads and to stores. -/
  invalid : ∀ (level : Nat) (offset : Int),
    (∀ x sym, env.Declares level x sym → (sym.slot : Int) ≠ offset) →
    m.cell level offset = none ∧
    ∀ machine : Machine, machine.memory = m →
      machine.fetchValue level offset = .error (.invalidAddress level offset) ∧
      ∀ v, machine.storeValue level offset v = machine.fail (.invalidAddress level offset)

/-- A channel that no scope hides is found in the base scope. -/
theorem Orderly.resolve_channel (ho : env.Orderly) (hx : Scope.channels.get? x = some sym)
    (hfree : ∀ s ∈ env.scopes, s.get? x = none) : env.resolve x = some ⟨env.depth, sym⟩ := by
  rw [resolve_eq_some_iff]
  unfold frames
  rw [ho.base]
  refine ⟨Scope.channels, ?_, hx, ?_⟩
  · exact List.getElem?_concat_length
  · intro j hj t ht
    rw [List.getElem?_append_left hj] at ht
    exact hfree t (List.mem_of_getElem? ht)

/-- **Levels and slots of scopes are those of blocks.** In every environment that declares names
    only above the base scope, and every memory with a block for each scope above it and a slot for
    each name. -/
theorem addresses_agree {ops : List Op} (hops : Above ops) (hm : m.Fits (initial.after ops)) :
    (initial.after ops).Agrees m := by
  have ho := hops.orderly
  generalize initial.after ops = env at hm ho
  constructor
  case resolved =>
    intro name a s hname hs
    obtain ⟨t, ht, hget, -⟩ := resolve_eq_some_iff.1 hname
    unfold frames at ht
    rw [List.getElem?_append_left (List.getElem?_eq_some_iff.1 hs).1] at ht
    cases hs.symm.trans ht
    exact ⟨hget, ho.cell_scope hm hs hget⟩
  case input =>
    intro hfree
    refine ⟨_, ho.resolve_channel channels_readChannel hfree, ?_⟩
    exact (cell_channel hm _ _).2 (Or.inl ⟨rfl, rfl⟩)
  case output =>
    intro hfree
    refine ⟨_, ho.resolve_channel channels_writeChannel hfree, ?_⟩
    exact (cell_channel hm _ _).2 (Or.inr ⟨rfl, rfl⟩)
  case found => exact fun k x sym hx => (ho.cell_iff hm).2 ⟨x, sym, hx, rfl⟩
  case apart =>
    intro k x sym k' y sym' c hx hy hc hc'
    obtain ⟨rfl, hslot⟩ := Memory.cell_inj hc hc'
    exact ⟨rfl, ho.eq_of_slot hx hy (Int.natCast_inj.1 hslot)⟩
  case owned =>
    intro k block i hblock hi
    have hcell : ∃ c, m.cell k (i : Int) = some c :=
      ⟨_, Memory.cell_eq_some_iff.2 (Or.inl
        ⟨i, _, block, hblock, List.getElem?_eq_getElem hi, rfl, rfl⟩)⟩
    obtain ⟨x, sym, hx, hslot⟩ := (ho.cell_iff hm).1 hcell
    refine ⟨x, ⟨sym, hx, (Int.natCast_inj.1 hslot).symm⟩, ?_⟩
    rintro y ⟨sym', hy, hslot'⟩
    exact ho.eq_of_slot hy hx (hslot'.trans (Int.natCast_inj.1 hslot))
  case invalid =>
    intro level offset hother
    have hnone : m.cell level offset = none := by
      by_contra hsome
      obtain ⟨x, sym, hx, hslot⟩ := (ho.cell_iff hm).1 (Option.ne_none_iff_exists'.1 hsome)
      exact hother x sym hx hslot.symm
    refine ⟨hnone, ?_⟩
    rintro machine rfl
    refine ⟨?_, fun v => ?_⟩
    · simp only [Machine.fetchValue, hnone]
    · simp only [Machine.storeValue, hnone]

/-- A block with a procedure, within one whose variable `x` the procedure's constant hides. -/
theorem nested_agree :
    let ops : List Op := [.enter, .define ⟨"x", .var, none⟩, .define ⟨"p", .procedure, none⟩,
      .enter, .define ⟨"x", .const, some 3⟩]
    let m : Memory := ⟨[[3], [0, 4]]⟩
    Above ops ∧ m.Fits (initial.after ops) ∧ m.cell 1 1 = some (.slot 1 1 4) ∧
      (∃! x, ∃ sym, (initial.after ops).Declares 1 x sym ∧ sym.slot = 0) ∧
      m.cell 0 1 = none := by
  intro ops m
  have hops : Above ops := by decide
  have hm : m.Fits (initial.after ops) := by decide
  have h := addresses_agree hops hm
  refine ⟨hops, hm, ?_, h.owned 1 [0, 4] 0 rfl (by decide), ?_⟩
  · obtain ⟨-, block, v, hblock, hv, hcell⟩ :=
      h.resolved "p" ⟨1, ⟨.procedure, none, 1⟩⟩ _ (by decide) rfl
    cases hblock
    cases hv
    exact hcell
  · refine (h.invalid 0 1 ?_).1
    rintro x sym ⟨s, hs, hx⟩
    cases hs
    -- The inner scope has one name only, in its slot 0.
    cases List.mem_singleton.1 (Scope.mem_of_get? hx)
    decide

end Environment

end PL0
