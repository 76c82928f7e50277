/-!
# `PL0.Memory` — activation blocks

The memory of the machine is a stack of blocks of zero-initialised slots, addressed from the top:
level 0 is the innermost block. Below the last block lies the I/O block, whose offset 0 is the input
channel and whose offset 1 is the output channel; every other address denotes nothing.

Main statements: a cell found is the slot that its address says (`cell_eq_slot_iff`), the channels
lie just below the blocks (`cell_length`), and beyond them there is nothing (`cell_of_length_lt`).
-/

namespace PL0

/-- A block has at most this many slots. -/
def maxBlockSize : Nat := 1048576

/-- What an address denotes. -/
inductive Cell where
  | input
  | output
  /-- A slot of a block, and the value in it. -/
  | slot (level : Nat) (index : Nat) (value : Int)
deriving DecidableEq, Repr, Inhabited

/-- The blocks above the I/O block, innermost first. -/
structure Memory where
  blocks : List (List Int)
deriving DecidableEq, Repr, Inhabited

namespace Memory

/-- The memory with only the I/O block. -/
def empty : Memory := ⟨[]⟩

/-- The number of blocks, the I/O block included. -/
def depth (m : Memory) : Nat := m.blocks.length + 1

/-- Open a block of `size` zeros, unless that is more than a block may have. -/
def enter? (m : Memory) (size : Nat) : Option Memory :=
  if size ≤ maxBlockSize then some ⟨List.replicate size 0 :: m.blocks⟩ else none

/-- Close the innermost block; the I/O block stays. -/
def exit? (m : Memory) : Option Memory :=
  match m.blocks with
  | [] => none
  | _ :: blocks => some ⟨blocks⟩

/-- The slot of a block that an offset denotes. -/
def slot? (block : List Int) (offset : Int) : Option (Nat × Int) :=
  if 0 ≤ offset then (block[offset.toNat]?).map fun v => (offset.toNat, v) else none

/-- The channel that an offset of the I/O block denotes. -/
def channel? (offset : Int) : Option Cell :=
  if offset = 0 then some .input else if offset = 1 then some .output else none

/-- What `offset` denotes in the block `level` blocks below the top. -/
def cell (m : Memory) (level : Nat) (offset : Int) : Option Cell :=
  if level = m.blocks.length then channel? offset
  else do
    let block ← m.blocks[level]?
    let (index, value) ← slot? block offset
    return .slot level index value

/-- Overwrite a slot. -/
def set (m : Memory) (level index : Nat) (value : Int) : Memory :=
  ⟨m.blocks.modify level fun block => block.set index value⟩

theorem cell_length (m : Memory) (offset : Int) :
    m.cell m.blocks.length offset = channel? offset := by
  simp [cell]

theorem cell_of_length_lt {m : Memory} {level : Nat} (h : m.blocks.length < level) (offset : Int) :
    m.cell level offset = none := by
  have hne : level ≠ m.blocks.length := by omega
  have hnone : m.blocks[level]? = none := List.getElem?_eq_none (by omega)
  simp [cell, hne, hnone]

theorem channel?_ne_slot (offset : Int) (l k : Nat) (v : Int) :
    channel? offset ≠ some (.slot l k v) := by
  unfold channel?
  split
  · simp
  · split <;> simp

theorem cell_eq_slot_iff {m : Memory} {level l k : Nat} {offset v : Int} :
    m.cell level offset = some (.slot l k v) ↔
      l = level ∧ offset = k ∧ ∃ block, m.blocks[level]? = some block ∧ block[k]? = some v := by
  unfold cell
  split
  · rename_i h
    subst h
    simp [channel?_ne_slot]
  · cases hb : m.blocks[level]? with
    | none => simp
    | some block =>
      simp only [Option.bind_eq_bind, Option.bind_some, Option.pure_def, slot?]
      by_cases h0 : 0 ≤ offset
      · cases hv : block[offset.toNat]? with
        | none =>
          simp only [h0, if_true, Option.map_none, Option.bind_none]
          constructor
          · intro h
            cases h
          · rintro ⟨_, rfl, block', hblock, hk⟩
            cases hblock
            simp_all
        | some w =>
          simp only [h0, if_true, Option.map_some, Option.bind_some, Option.some.injEq,
            Cell.slot.injEq]
          constructor
          · rintro ⟨rfl, rfl, rfl⟩
            exact ⟨rfl, by omega, block, rfl, hv⟩
          · rintro ⟨rfl, rfl, block', rfl, hk⟩
            simp_all
      · simp only [h0, if_false, Option.bind_none]
        constructor
        · intro h
          cases h
        · rintro ⟨_, rfl, _⟩
          omega

end Memory

end PL0
