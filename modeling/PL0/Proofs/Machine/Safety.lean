import PL0.Proofs.Json.Artifact
import PL0.Proofs.Machine.Stepping

/-!
# `Machine.Safety` — arbitrary code does no harm

An artifact may hold any instructions at all, with any levels and offsets that fit in 64 bits. The
machine leans on such code for nothing: it finds its blocks by unsigned subtraction
(`Memory.lookup`), keeps addresses among signed words, and goes on after faults.

`Machine.WellFormed` is the invariant: everything the machine holds is a word and no block is too
large. `Machine.Moves` says where control is after a step, `Machine.Resizes` what the blocks are,
for every instruction and every way it may end. Both are read off `Machine.acts_execute`, and so is
the step lemma of the invariant.

Main statement: `Machine.safe`, for every number of steps past faults and past the end.
-/

namespace PL0

/-- The signed word that has the bits of an unsigned one. -/
def Word.ofUnsigned (n : Nat) : Int := Int.bmod n (2 ^ 64)

theorem Word.ofUnsigned_eq {n : Nat} (h : (n : Int) ≤ Word.greatest) :
    Word.ofUnsigned n = n := by
  unfold Word.greatest at h
  unfold Word.ofUnsigned Int.bmod
  have hmod : (n : Int) % (2 ^ 64 : Nat) = n := by omega
  rw [hmod, if_pos (by omega)]

/-! ## Addressing -/

namespace Memory

variable {m : Memory} {level index : Nat} {offset : Int}

/-- The index, from the bottom, of the block `level` blocks below the top of `count` blocks: one is
    added to the level and the sum is taken from `count`, each unless the result is none that an
    unsigned 64-bit number can have. -/
def index? (count level : Nat) : Option Nat :=
  if level + 1 < 2 ^ 64 then
    if level + 1 ≤ count then some (count - (level + 1)) else none
  else none

/-- What looking up an address can come to. -/
inductive Lookup where
  | found (c : Cell)
  | invalid
  /-- There is no block at the index computed. -/
  | outside (index : Nat)
deriving DecidableEq, Repr

/-- Look up an address in the blocks as they lie in memory, the innermost last. That the index
    computed is one of a block is not tested. -/
def lookup (m : Memory) (level : Nat) (offset : Int) : Lookup :=
  if level = m.blocks.length then
    match channel? offset with
    | some c => .found c
    | none => .invalid
  else
    match index? m.blocks.length level with
    | none => .invalid
    | some index =>
      if offset < 0 then .invalid
      else
        match m.blocks.reverse[index]? with
        | none => .outside index
        | some block =>
          match block[offset.toNat]? with
          | some v => .found (.slot level offset.toNat v)
          | none => .invalid

/-- The answer for what an address denotes. -/
def Lookup.ofCell : Option Cell → Lookup
  | some c => .found c
  | none => .invalid

/-- An index computed is exact and is that of a block. -/
theorem index?_spec {count : Nat} (h : index? count level = some index) :
    index + (level + 1) = count := by
  unfold index? at h
  by_cases hword : level + 1 < 2 ^ 64
  · rw [if_pos hword] at h
    by_cases hle : level + 1 ≤ count
    · rw [if_pos hle] at h
      cases h
      omega
    · rw [if_neg hle] at h
      cases h
  · rw [if_neg hword] at h
    cases h

theorem index?_eq_none {count : Nat} (hcount : count < 2 ^ 64) (h : index? count level = none) :
    count ≤ level := by
  unfold index? at h
  by_cases hword : level + 1 < 2 ^ 64
  · rw [if_pos hword] at h
    by_cases hle : level + 1 ≤ count
    · rw [if_pos hle] at h
      cases h
    · omega
  · omega

theorem reverse_index (h : index? m.blocks.length level = some index) :
    m.blocks.reverse[index]? = m.blocks[level]? ∧ level < m.blocks.length := by
  have hspec := index?_spec h
  refine ⟨?_, by omega⟩
  rw [List.getElem?_reverse (by omega)]
  congr 1
  omega

/-- No address makes the machine index outside its blocks. -/
theorem lookup_ne_outside (m : Memory) (level : Nat) (offset : Int) (index : Nat) :
    m.lookup level offset ≠ .outside index := by
  unfold lookup
  split
  · split
    · nofun
    · nofun
  · split
    · nofun
    · rename_i i hindex
      obtain ⟨hreverse, hlt⟩ := reverse_index hindex
      split
      · nofun
      · rw [hreverse, List.getElem?_eq_getElem hlt]
        dsimp only
        split
        · nofun
        · nofun

/-- The lookup finds what the address denotes. -/
theorem lookup_eq (h : m.blocks.length < 2 ^ 64) (level : Nat) (offset : Int) :
    m.lookup level offset = .ofCell (m.cell level offset) := by
  unfold lookup cell
  by_cases hlevel : level = m.blocks.length
  · rw [if_pos hlevel, if_pos hlevel]
    cases channel? offset <;> rfl
  · rw [if_neg hlevel, if_neg hlevel]
    cases hindex : index? m.blocks.length level with
    | none =>
      have hle := index?_eq_none h hindex
      rw [List.getElem?_eq_none hle]
      rfl
    | some index =>
      obtain ⟨hreverse, hlt⟩ := reverse_index hindex
      simp only [hreverse, List.getElem?_eq_getElem hlt, Option.bind_eq_bind, Option.bind_some,
        slot?]
      by_cases hneg : offset < 0
      · rw [if_pos hneg, if_neg (by omega)]
        rfl
      · rw [if_neg hneg, if_pos (by omega)]
        cases (m.blocks[level])[offset.toNat]? <;> rfl

end Memory

namespace Machine

variable {code : Array Instruction} {m m₁ : Machine} {x : Nat} {i : Instruction}
  {r : Option Interruption × Machine}

/-! ## Where control is after a step -/

/-- Where control is after the instruction `i` at `x`, and what the step answers. -/
inductive Moves (x : Nat) (i : Instruction) (m : Machine) (o : Outcome) (m' : Machine) : Prop
  /-- Behind the instruction, which sends control nowhere, whether it faults or not. -/
  | onward : m.aim? i = none → (∀ a n, o ≠ .fault a (.codeAddressOutOfRange n)) → o ≠ .halted →
      m'.ip = some (x + 1) → Moves x i m o m'
  /-- Where the instruction sends it, inside the code or beyond it. -/
  | went (target : Nat) : m.aim? i = some (target : Int) → o = .running →
      m'.ip = some target → Moves x i m o m'
  /-- Behind the instruction, which faults with the negative address that it aims at. -/
  | refused (n : Int) : m.aim? i = some n → n < 0 → o = .fault x (.codeAddressOutOfRange n) →
      m'.ip = some (x + 1) → Moves x i m o m'
  /-- Nowhere: `OPR 0` has left a block and found no address to return to. -/
  | halted : i.op = .opr → i.offset = .number 0 → m.memory.blocks ≠ [] → m.stack = [] →
      o = .halted → m'.ip = none → Moves x i m o m'

theorem moves_jump {target : Int} (ha : m.aim? i = some target) (hip : m₁.ip = some (x + 1)) :
    Moves x i m (conclude x (m₁.jump target)).1 (m₁.jump target).2 := by
  unfold jump
  by_cases hneg : target < 0
  · rw [if_pos hneg]
    exact .refused target ha hneg rfl hip
  · rw [if_neg hneg]
    obtain ⟨y, rfl⟩ := Int.eq_ofNat_of_zero_le (Int.not_lt.1 hneg)
    exact .went y ha rfl rfl

theorem conclude_done {y : Nat} (hip : m₁.ip = some y) : (conclude x (done m₁)).1 = .running := by
  simp only [conclude, done, isHalted, hip, Option.isNone_some, Bool.false_eq_true, if_false]

theorem moves_done (ha : m.aim? i = none) (hip : m₁.ip = some (x + 1)) :
    Moves x i m (conclude x (done m₁)).1 (done m₁).2 := by
  refine .onward ha ?_ ?_ hip
  · rw [conclude_done hip]
    nofun
  · rw [conclude_done hip]
    nofun

theorem Computes.aim? {popped : List Int} {v : Int} (h : Computes i popped v) (m : Machine) :
    m.aim? i = none := by
  cases h with
  | literal => rfl
  | odd => rfl
  | relation => rfl
  | arith _ => rfl

theorem Acts.moves (h : Acts x (m.advanced x) i r) : Moves x i m (conclude x r).1 r.2 := by
  cases h with
  | stuck f popped rest ha hf _ _ =>
    refine .onward ha ?_ nofun rfl
    intro a n ho
    cases ho
    exact hf n rfl
  | computed rest hv _ => exact moves_done (hv.aim? m) rfl
  | loaded _ => exact moves_done rfl rfl
  | stored _ _ => exact moves_done rfl rfl
  | @wrote _ _ v rest _ _ =>
    refine .onward rfl ?_ ?_ rfl
    · cases ((m.advanced x).sink.write v).1 <;> nofun
    · cases ((m.advanced x).sink.write v).1 <;> nofun
  | jumped => exact moves_jump rfl rfl
  | branched hs =>
    have hs' : m.stack = 0 :: _ := hs
    exact moves_jump (by simp only [aim?, hs', List.head?_cons, if_true]) rfl
  | @passed level offset v rest hs hv =>
    have hs' : m.stack = v :: rest := hs
    refine moves_done ?_ rfl
    cases offset with
    | number n =>
      simp only [aim?, hs', List.head?_cons, Option.some.injEq]
      rw [if_neg hv]
    | operator op => rfl
  | called hget => exact moves_jump hget.aim? rfl
  | opened _ => exact moves_done rfl rfl
  | returned hb hs =>
    have hb' : m.memory.blocks = _ := hb
    have hs' : m.stack = _ := hs
    exact moves_jump (by simp [aim?, hb', hs']) rfl
  | halted hb hs =>
    have hb' : m.memory.blocks = _ := hb
    exact .halted rfl rfl (by simp [hb']) hs rfl rfl

/-- Every address that a `CAL` returns to is its own plus 1. -/
theorem Acts.return_address (h : Acts x m i r) (hop : i.op = .cal) {n : Int}
    (ha : m.aim? i = some n) : r.2.stack = ((x + 1 : Nat) : Int) :: m.stack := by
  cases h with
  | stuck _ _ _ hnone _ _ _ => cases ha.symm.trans hnone
  | computed _ hv _ => cases ha.symm.trans (hv.aim? m)
  | called _ => exact jump_stack ..
  | _ => cases hop

/-! ## The blocks after a step -/

/-- The sizes of the blocks, innermost first. -/
def sizes (m : Machine) : List Nat := m.memory.blocks.map List.length

/-- What the instruction `i` does to the blocks: it opens one or leaves one, and all others keep
    their sizes. -/
inductive Resizes (i : Instruction) (m m' : Machine) : Prop
  | kept : m'.sizes = m.sizes → Resizes i m m'
  | opened (size : Nat) : i.op = .int → i.offset = .number size → size ≤ maxBlockSize →
      m'.sizes = size :: m.sizes → Resizes i m m'
  | left (size : Nat) : i.op = .opr → i.offset = .number 0 → m.sizes = size :: m'.sizes →
      Resizes i m m'

theorem map_length_set (m : Memory) (l k : Nat) (v : Int) :
    (m.set l k v).blocks.map List.length = m.blocks.map List.length := by
  unfold Memory.set
  apply List.ext_getElem?
  intro j
  simp only [List.getElem?_map, List.getElem?_modify]
  cases m.blocks[j]? with
  | none => rfl
  | some block =>
    by_cases hj : l = j
    · simp only [if_pos hj, Option.map_eq_map, Option.map_some, List.length_set]
    · simp only [if_neg hj, Option.map_eq_map, Option.map_some]

theorem Acts.resizes (h : Acts x (m.advanced x) i r) : Resizes i m r.2 := by
  cases h with
  | stuck _ _ _ _ _ _ _ => exact .kept rfl
  | computed _ _ _ => exact .kept rfl
  | loaded _ => exact .kept rfl
  | stored _ _ => exact .kept (map_length_set ..)
  | wrote _ _ => exact .kept rfl
  | jumped => exact .kept (by rw [sizes, jump_memory]; rfl)
  | branched _ => exact .kept (by rw [sizes, jump_memory]; rfl)
  | passed _ _ => exact .kept rfl
  | called _ => exact .kept (by rw [sizes, jump_memory]; rfl)
  | @opened _ size hsize =>
    refine .opened size rfl rfl hsize ?_
    simp only [sizes, done, advanced, List.map_cons, List.length_replicate]
  | @returned _ _ _ block blocks hb _ =>
    have hb' : m.memory.blocks = block :: blocks := hb
    refine .left block.length rfl rfl ?_
    simp only [sizes, jump_memory, hb', List.map_cons]
  | @halted _ block blocks hb _ =>
    have hb' : m.memory.blocks = block :: blocks := hb
    refine .left block.length rfl rfl ?_
    simp only [sizes, done, hb', List.map_cons]

/-! ## The invariant -/

/-- A machine on the code `code` that holds nothing but words, in blocks that are not too large. -/
structure WellFormed (code : Array Instruction) (m : Machine) : Prop where
  code : m.code = code
  /-- The instruction pointer is a signed word too. -/
  pointer : ∀ x, m.ip = some x → (x : Int) ≤ Word.greatest
  stack : ∀ v ∈ m.stack, Word.InRange v
  slots : ∀ block ∈ m.memory.blocks, ∀ v ∈ block, Word.InRange v
  sizes : ∀ size ∈ m.sizes, size ≤ maxBlockSize
  input : ∀ v ∈ m.input, Word.InRange v

section

variable (h : WellFormed code m)

include h

theorem WellFormed.jump {target : Int} (ht : Word.InRange target) :
    WellFormed code (m.jump target).2 := by
  unfold Machine.jump
  by_cases hneg : target < 0
  · rw [if_pos hneg]
    exact h
  · rw [if_neg hneg]
    refine { h with pointer := ?_ }
    rintro x ⟨rfl⟩
    rw [Int.toNat_of_nonneg (Int.not_lt.1 hneg)]
    exact ht.2

theorem WellFormed.setStack {stack : List Int} (hs : ∀ v ∈ stack, Word.InRange v) :
    WellFormed code { m with stack } :=
  { h with stack := hs }

theorem WellFormed.drop {popped rest : List Int} (hs : m.stack = popped ++ rest) :
    ∀ v ∈ rest, Word.InRange v := by
  intro v hv
  apply h.stack
  rw [hs]
  exact List.mem_append_right popped hv

theorem WellFormed.gets {level : Nat} {offset v : Int} {input : List Int}
    (hget : m.Gets level offset v input) :
    Word.InRange v ∧ ∀ w ∈ input, Word.InRange w := by
  cases hget with
  | slot hcell =>
    obtain ⟨-, -, block, hblock, hv⟩ := Memory.cell_eq_slot_iff.1 hcell
    exact ⟨h.slots block (List.mem_of_getElem? hblock) v (List.mem_of_getElem? hv), h.input⟩
  | input _ hinput =>
    have hall := h.input
    rw [hinput] at hall
    exact ⟨hall v List.mem_cons_self, fun w hw => hall w (List.mem_cons_of_mem v hw)⟩

end

theorem inRange_of_orOverflow {v w : Int} (h : Fault.orOverflow v = .ok w) : Word.InRange w := by
  unfold Fault.orOverflow at h
  split at h
  · rename_i hv
    cases h
    obtain ⟨hrange, rfl⟩ := Word.checked_eq_some_iff.1 hv
    exact hrange
  · cases h

theorem Computes.inRange {popped : List Int} {v : Int} (h : Computes i popped v) (hi : i.Fits) :
    Word.InRange v := by
  cases h with
  | literal => exact hi.offset
  | odd => exact Word.inRange_ofBool _
  | relation => exact Word.inRange_ofBool _
  | @arith _ op _ _ _ hv =>
    cases op with
    | add => exact inRange_of_orOverflow hv
    | sub => exact inRange_of_orOverflow hv
    | mul => exact inRange_of_orOverflow hv
    | div =>
      simp only [Arith.eval] at hv
      split at hv
      · cases hv
      · exact inRange_of_orOverflow hv

theorem mem_of_set {m : Memory} {l k : Nat} {v : Int} {block : List Int}
    (h : block ∈ (m.set l k v).blocks) :
    ∃ old ∈ m.blocks, ∀ w ∈ block, w = v ∨ w ∈ old := by
  obtain ⟨j, hj⟩ := List.getElem?_of_mem h
  simp only [Memory.set, List.getElem?_modify] at hj
  cases hb : m.blocks[j]? with
  | none =>
    rw [hb] at hj
    cases hj
  | some old =>
    refine ⟨old, List.mem_of_getElem? hb, ?_⟩
    intro w hw
    rw [hb, Option.map_eq_map, Option.map_some, Option.some.injEq] at hj
    by_cases hl : l = j
    · rw [if_pos hl] at hj
      rw [← hj] at hw
      exact (List.mem_or_eq_of_mem_set hw).symm
    · rw [if_neg hl] at hj
      rw [← hj] at hw
      exact Or.inr hw

section

variable (h : WellFormed code m)

include h

theorem WellFormed.setSlot {v : Int} (hv : Word.InRange v) (l k : Nat) :
    WellFormed code { m with memory := m.memory.set l k v } := by
  refine { h with slots := ?_, sizes := ?_ }
  · intro block hblock w hw
    obtain ⟨old, hold, hmem⟩ := mem_of_set hblock
    rcases hmem w hw with rfl | hw
    · exact hv
    · exact h.slots old hold w hw
  · intro size hsize
    refine h.sizes size ?_
    rwa [Machine.sizes, map_length_set] at hsize

theorem WellFormed.enter {size : Nat} (hsize : size ≤ maxBlockSize) :
    WellFormed code { m with memory := ⟨List.replicate size 0 :: m.memory.blocks⟩ } := by
  refine { h with slots := List.forall_mem_cons.2 ⟨?_, h.slots⟩, sizes := ?_ }
  · intro v hv
    rw [List.eq_of_mem_replicate hv]
    decide
  · show ∀ n ∈ (List.replicate size 0).length :: m.sizes, n ≤ maxBlockSize
    rw [List.length_replicate]
    exact List.forall_mem_cons.2 ⟨hsize, h.sizes⟩

theorem WellFormed.exit {block : List Int} {blocks : List (List Int)}
    (hb : m.memory.blocks = block :: blocks) : WellFormed code { m with memory := ⟨blocks⟩ } := by
  have hslots := h.slots
  have hsizes := h.sizes
  rw [hb] at hslots
  rw [Machine.sizes, hb] at hsizes
  exact { h with
    slots := (List.forall_mem_cons.1 hslots).2
    sizes := (List.forall_mem_cons.1 hsizes).2 }

theorem WellFormed.pop {v : Int} {rest : List Int} (hs : m.stack = v :: rest) :
    Word.InRange v ∧ WellFormed code { m with stack := rest } := by
  have hstack := h.stack
  rw [hs] at hstack
  obtain ⟨hv, hrest⟩ := List.forall_mem_cons.1 hstack
  exact ⟨hv, h.setStack hrest⟩

end

/-- **An instruction keeps the invariant**, however it ends. -/
theorem Acts.wellFormed (hacts : Acts x m i r) (h : WellFormed code m) (hi : i.Fits)
    (hx : ((x + 1 : Nat) : Int) ≤ Word.greatest) : WellFormed code r.2 := by
  cases hacts with
  | stuck _ _ _ _ _ hs _ => exact h.setStack (h.drop hs)
  | computed rest hv hs => exact h.setStack (List.forall_mem_cons.2 ⟨hv.inRange hi, h.drop hs⟩)
  | loaded hget =>
    obtain ⟨hv, hinput⟩ := h.gets hget
    exact { h with stack := List.forall_mem_cons.2 ⟨hv, h.stack⟩, input := hinput }
  | stored hs _ =>
    obtain ⟨hv, hrest⟩ := h.pop hs
    exact hrest.setSlot hv ..
  | wrote hs _ =>
    obtain ⟨-, hrest⟩ := h.pop hs
    exact { hrest with }
  | jumped => exact h.jump hi.offset
  | branched hs => exact (h.pop hs).2.jump hi.offset
  | passed hs _ => exact (h.pop hs).2
  | @called _ _ _ input hget =>
    obtain ⟨hv, hinput⟩ := h.gets hget
    have hreturn : Word.InRange ((x + 1 : Nat) : Int) := ⟨by unfold Word.least; omega, hx⟩
    have hpushed : WellFormed code
        { m with stack := ((x + 1 : Nat) : Int) :: m.stack, input } :=
      { h with stack := List.forall_mem_cons.2 ⟨hreturn, h.stack⟩, input := hinput }
    exact hpushed.jump hv
  | opened hsize => exact h.enter hsize
  | returned hb hs =>
    obtain ⟨htarget, hrest⟩ := (h.exit hb).pop hs
    exact hrest.jump htarget
  | halted hb _ => exact { h.exit hb with pointer := nofun, stack := nofun }

section

variable (hcode : ∀ i ∈ code, i.Fits) (hsize : (code.size : Int) ≤ Word.greatest)

include hsize

/-- An instruction's address plus 1 is a signed word. -/
theorem succ_le_greatest (hi : code[x]? = some i) : ((x + 1 : Nat) : Int) ≤ Word.greatest := by
  obtain ⟨hlt, -⟩ := Array.getElem?_eq_some_iff.1 hi
  omega

include hcode

theorem WellFormed.step (h : WellFormed code m) : WellFormed code m.step.2 := by
  cases hip : m.ip with
  | none =>
    rw [step_halted hip]
    exact h
  | some x =>
    cases hi : m.code[x]? with
    | none =>
      rw [step_outside hip hi]
      exact h
    | some i =>
      rw [step_fetched hip hi, conclude_snd]
      rw [h.code] at hi
      have hx := succ_le_greatest hsize hi
      have hadvanced : WellFormed code (m.advanced x) :=
        { h with pointer := by rintro _ ⟨rfl⟩; exact hx }
      exact (acts_execute (m.advanced x) x i).wellFormed hadvanced
        (hcode i (Array.mem_of_getElem? hi)) hx

/-- **Every machine reached on fitting code is well-formed.** -/
theorem wellFormed_after {input : List Int} {sink : Sink} (hinput : ∀ v ∈ input, Word.InRange v)
    (k : Nat) : WellFormed code ((load code input sink).after k) := by
  refine after_induction ?_ (fun m h => h.step hcode hsize) k
  exact ⟨rfl, by rintro _ ⟨rfl⟩; decide, nofun, nofun, nofun, hinput⟩

end

/-! ## Every step of every run -/

/-- How the instruction pointer has come to the address `a` in `k` steps. -/
inductive Arrived (m : Machine) (k a : Nat) : Prop
  /-- The run started there and has not left. -/
  | start : a = 0 → m.after k = m → Arrived m k a
  /-- The last instruction executed, at `x`, has sent control there. -/
  | aimed (j x : Nat) (i : Instruction) : j < k → m.after (j + 1) = m.after k →
      (m.after j).fetch? = some (x, i) → (m.after j).aim? i = some (a : Int) →
      m.answer j = .running → Arrived m k a
  /-- The last instruction executed was in front of it and has sent control nowhere. -/
  | ranOff (j x : Nat) (i : Instruction) : j < k → m.after (j + 1) = m.after k →
      (m.after j).fetch? = some (x, i) → (∀ y : Nat, (m.after j).aim? i ≠ some (y : Int)) →
      a = x + 1 → Arrived m k a

/-- What the address `n` is that the step behind `k` steps, at `a`, finds outside the code. -/
inductive Reported (m : Machine) (k a : Nat) (n : Int) : Prop
  /-- The instruction that aims below the code says so itself. -/
  | below (i : Instruction) : (m.after k).fetch? = some (a, i) → (m.after k).aim? i = some n →
      n < 0 → Reported m k a n
  /-- What is beyond the code is found by the fetch at that address, which changes nothing. -/
  | beyond : n = a → (m.after k).ip = some a → m.code.size ≤ a → m.after (k + 1) = m.after k →
      Arrived m k a → Reported m k a n

/-- What is safe about a machine and its next step. -/
structure Safe (m : Machine) : Prop where
  /-- No address makes it index outside its blocks, -/
  inside : ∀ level offset index, m.memory.lookup level offset ≠ .outside index
  /-- no index that it computes is wrapped, -/
  unwrapped : ∀ level index, Memory.index? m.memory.blocks.length level = some index →
    index + (level + 1) = m.memory.blocks.length
  /-- and it finds what the address denotes. -/
  lookup : m.memory.blocks.length < 2 ^ 64 → ∀ level offset,
    m.memory.lookup level offset = .ofCell (m.memory.cell level offset)
  sizes : ∀ size ∈ m.sizes, size ≤ maxBlockSize
  /-- All values are words, and so is the instruction pointer. -/
  stack : ∀ v ∈ m.stack, Word.InRange v
  slots : ∀ block ∈ m.memory.blocks, ∀ v ∈ block, Word.InRange v
  pointer : ∀ x, m.ip = some x → Word.ofUnsigned x = x
  halted : m.ip = none → m.step = (.halted, m)
  /-- A fetch outside the code reports the address and changes nothing. -/
  outside : ∀ x, m.ip = some x → m.code.size ≤ x →
    m.step = (.fault x (.codeAddressOutOfRange x), m)
  moves : ∀ x i, m.fetch? = some (x, i) → Moves x i m m.step.1 m.step.2
  resizes : ∀ x i, m.fetch? = some (x, i) → Resizes i m m.step.2
  /-- A call that has found an address pushes the one behind its own, whose word is exact. -/
  returns : ∀ x i n, m.fetch? = some (x, i) → i.op = .cal → m.aim? i = some n →
    m.step.2.stack = ((x + 1 : Nat) : Int) :: m.stack ∧
      Word.ofUnsigned (x + 1) = ((x + 1 : Nat) : Int)

theorem moves_step (h : m.fetch? = some (x, i)) : Moves x i m m.step.1 m.step.2 := by
  obtain ⟨hip, hi⟩ := fetch?_eq_some_iff.1 h
  rw [step_fetched hip hi, conclude_snd]
  exact (acts_execute (m.advanced x) x i).moves

theorem WellFormed.next_safe (h : WellFormed code m) (hsize : (code.size : Int) ≤ Word.greatest) :
    Safe m where
  inside := Memory.lookup_ne_outside m.memory
  unwrapped _ _ := Memory.index?_spec
  lookup := Memory.lookup_eq
  sizes := h.sizes
  stack := h.stack
  slots := h.slots
  pointer x hip := Word.ofUnsigned_eq (h.pointer x hip)
  halted := step_halted
  outside x hip hx := step_outside hip (Array.getElem?_eq_none hx)
  moves x i hf := moves_step hf
  resizes x i hf := by
    obtain ⟨hip, hi⟩ := fetch?_eq_some_iff.1 hf
    rw [step_fetched hip hi, conclude_snd]
    exact (acts_execute (m.advanced x) x i).resizes
  returns x i n hf hop ha := by
    obtain ⟨hip, hi⟩ := fetch?_eq_some_iff.1 hf
    rw [step_fetched hip hi, conclude_snd]
    rw [h.code] at hi
    exact ⟨(acts_execute (m.advanced x) x i).return_address hop ha,
      Word.ofUnsigned_eq (succ_le_greatest hsize hi)⟩

theorem arrived (hstart : m.ip = some 0) {k a : Nat} (hip : (m.after k).ip = some a) :
    Arrived m k a := by
  induction k generalizing a with
  | zero =>
    cases hstart.symm.trans hip
    exact .start rfl rfl
  | succ k ih =>
    cases hipk : (m.after k).ip with
    | none =>
      rw [after_succ, step_halted hipk] at hip
      cases hipk.symm.trans hip
    | some x =>
      cases hi : (m.after k).code[x]? with
      | none =>
        -- A fetch outside the code: the same machine as before, with the same past.
        have hsame : m.after (k + 1) = m.after k := by
          rw [after_succ, step_outside hipk hi]
        rw [hsame] at hip
        cases ih hip with
        | start h0 hm => exact .start h0 (hsame.trans hm)
        | aimed j y i' hj hm hf haim ho =>
          exact .aimed j y i' (by omega) (hm.trans hsame.symm) hf haim ho
        | ranOff j y i' hj hm hf haim heq =>
          exact .ranOff j y i' (by omega) (hm.trans hsame.symm) hf haim heq
      | some i =>
        have hf : (m.after k).fetch? = some (x, i) := fetch?_eq_some_iff.2 ⟨hipk, hi⟩
        rw [after_succ] at hip
        cases moves_step hf with
        | onward haim _ _ hip' =>
          cases hip'.symm.trans hip
          exact .ranOff k x i (Nat.lt_succ_self k) rfl hf (fun y => by rw [haim]; nofun) rfl
        | went target haim ho hip' =>
          cases hip'.symm.trans hip
          exact .aimed k x i (Nat.lt_succ_self k) rfl hf haim ho
        | refused n haim hneg _ hip' =>
          cases hip'.symm.trans hip
          refine .ranOff k x i (Nat.lt_succ_self k) rfl hf ?_ rfl
          intro y hy
          cases haim.symm.trans hy
          omega
        | halted _ _ _ _ _ hip' => cases hip'.symm.trans hip

theorem reported (hwf : ∀ k, WellFormed code (m.after k)) (hstart : m.ip = some 0) {k a : Nat}
    {n : Int} (h : m.answer k = .fault a (.codeAddressOutOfRange n)) : Reported m k a n := by
  unfold answer at h
  cases hip : (m.after k).ip with
  | none =>
    rw [step_halted hip] at h
    cases h
  | some x =>
    cases hi : (m.after k).code[x]? with
    | none =>
      rw [step_outside hip hi] at h
      cases h
      rw [(hwf k).code, Array.getElem?_eq_none_iff] at hi
      have hsize : m.code.size ≤ a := (hwf 0).code ▸ hi
      refine .beyond rfl hip hsize ?_ (arrived hstart hip)
      rw [after_succ, step_outside hip]
      rw [(hwf k).code]
      exact Array.getElem?_eq_none hi
    | some i =>
      have hf : (m.after k).fetch? = some (x, i) := fetch?_eq_some_iff.2 ⟨hip, hi⟩
      cases moves_step hf with
      | onward _ hne _ _ => exact absurd h (hne a n)
      | went _ _ ho _ => cases ho.symm.trans h
      | refused n' haim hneg ho _ =>
        cases ho.symm.trans h
        exact .below i hf haim hneg
      | halted _ _ _ _ ho _ => cases ho.symm.trans h

/-- An address outside the code that control is sent to is reported, with its very value. -/
theorem answer_of_aim (hwf : ∀ k, WellFormed code (m.after k)) {k : Nat} {n : Int}
    (hf : (m.after k).fetch? = some (x, i)) (haim : (m.after k).aim? i = some n) :
    (n < 0 → m.answer k = .fault x (.codeAddressOutOfRange n)) ∧
      ((code.size : Int) ≤ n → m.answer k = .running ∧
        m.answer (k + 1) = .fault n.toNat (.codeAddressOutOfRange n)) := by
  cases moves_step hf with
  | onward hnone _ _ _ => cases haim.symm.trans hnone
  | went target haim' ho hip =>
    cases haim.symm.trans haim'
    refine ⟨fun hneg => by omega, fun hsize => ⟨ho, ?_⟩⟩
    rw [← after_succ] at hip
    have hout : (m.after (k + 1)).code[target]? = none := by
      rw [(hwf (k + 1)).code]
      exact Array.getElem?_eq_none (Int.ofNat_le.1 hsize)
    rw [answer, step_outside hip hout]
    rfl
  | refused n' haim' hneg ho _ =>
    cases haim.symm.trans haim'
    exact ⟨fun _ => ho, fun hsize => by omega⟩
  | halted hop hoff hblocks hstack _ _ =>
    simp only [aim?, hop, hoff, hstack, List.head?_nil, ite_self] at haim
    cases haim

theorem after_of_halted {k j : Nat} (h : (m.after k).ip = none) (hj : k ≤ j) :
    m.after j = m.after k ∧ m.answer j = .halted := by
  have hafter : m.after j = m.after k := by
    induction hj with
    | refl => rfl
    | step _ ih => rw [after_succ, ih, step_halted h]
  refine ⟨hafter, ?_⟩
  rw [answer, hafter, step_halted h]

/-- **The machine is safe on arbitrary code**, stepped on past faults and past its end. Of every
    machine reached the next step is safe (`Safe`); every code address reported out of range is the
    one that control was sent to, or came to behind the last instruction (`Reported`), and every one
    that control is sent to is reported; and once halted the machine answers so forever and stays as
    it is. -/
theorem safe (code : Array Instruction) (input : List Int) (sink : Sink)
    (hcode : ∀ i ∈ code, i.Fits) (hsize : (code.size : Int) ≤ Word.greatest)
    (hinput : ∀ v ∈ input, Word.InRange v) :
    (∀ k, Safe ((load code input sink).after k)) ∧
      (∀ k a n, (load code input sink).answer k = .fault a (.codeAddressOutOfRange n) →
        Reported (load code input sink) k a n) ∧
      (∀ k x i n, ((load code input sink).after k).fetch? = some (x, i) →
        ((load code input sink).after k).aim? i = some n →
        (n < 0 → (load code input sink).answer k = .fault x (.codeAddressOutOfRange n)) ∧
          ((code.size : Int) ≤ n → (load code input sink).answer k = .running ∧
            (load code input sink).answer (k + 1) =
              .fault n.toNat (.codeAddressOutOfRange n))) ∧
      ∀ k, ((load code input sink).after k).ip = none → ∀ j, k ≤ j →
        (load code input sink).after j = (load code input sink).after k ∧
          (load code input sink).answer j = .halted := by
  have hwf (k : Nat) : WellFormed code ((load code input sink).after k) :=
    wellFormed_after hcode hsize hinput k
  refine ⟨?_, ?_, ?_, ?_⟩
  · intro k
    exact (hwf k).next_safe hsize
  · intro k a n h
    exact reported hwf rfl h
  · intro k x i n hf haim
    exact answer_of_aim hwf hf haim
  · intro k h j hj
    exact after_of_halted h hj

/-- Aims below the code, at the greatest level there is, and beyond the code. -/
def stray : Array Instruction :=
  #[.make .jmp 0 (-5), .make .lod 18446744073709551615 0, .make .jmp 0 9]

theorem stray_safe :
    (∀ i ∈ stray, i.Fits) ∧ (stray.size : Int) ≤ Word.greatest ∧ (∀ v ∈ [7], Word.InRange v) ∧
      (load stray [7] .unlimited).answer 0 = .fault 0 (.codeAddressOutOfRange (-5)) ∧
      Reported (load stray [7] .unlimited) 0 0 (-5) ∧
      (load stray [7] .unlimited).answer 1 =
        .fault 1 (.invalidAddress 18446744073709551615 0) ∧
      (load stray [7] .unlimited).answer 4 = .fault 9 (.codeAddressOutOfRange 9) ∧
      Reported (load stray [7] .unlimited) 4 9 9 ∧
      Safe ((load stray [7] .unlimited).after 4) := by
  have hcode : ∀ i ∈ stray, i.Fits := by decide
  have hsize : (stray.size : Int) ≤ Word.greatest := by decide
  have hinput : ∀ v ∈ [7], Word.InRange v := by decide
  obtain ⟨hsafe, hreported, -, -⟩ := safe stray [7] .unlimited hcode hsize hinput
  have h0 : (load stray [7] .unlimited).answer 0 = .fault 0 (.codeAddressOutOfRange (-5)) := by
    decide
  have h4 : (load stray [7] .unlimited).answer 4 = .fault 9 (.codeAddressOutOfRange 9) := by
    decide
  exact ⟨hcode, hsize, hinput, h0, hreported 0 0 (-5) h0, by decide, h4, hreported 4 9 9 h4,
    hsafe 4⟩

end Machine

end PL0
