import PL0.Instruction
import PL0.Word

/-!
# `PL0.Code` — the instruction buffer

Code is emitted instruction by instruction. An emitted instruction keeps its address and its
operation; its level and its offset may be patched later, when a size or a target has become known.

Main statements: an instruction gets the address that was announced and is found there
(`address_emit`, `getElem?_emit_self`), and all others stay what they were (`getElem?_emit_of_lt`).
-/

namespace PL0

/-- The field of an instruction that a patch overwrites. -/
inductive Field where
  | level | offset
deriving DecidableEq, Repr, Inhabited

/-- Why a patch was refused. -/
inductive PatchError where
  /-- No instruction has this address yet. -/
  | unemitted (address : Nat)
  /-- The value is too great for an offset. -/
  | tooLarge
deriving DecidableEq, Repr, Inhabited

def PatchError.message : PatchError → String
  | unemitted address => s!"Backpatch of unemitted address {address}"
  | tooLarge => "number too large to fit in target type"

/-- The instructions emitted so far. -/
structure Code where
  instructions : Array Instruction
deriving DecidableEq, Repr, Inhabited

namespace Code

/-- The buffer before the first instruction. -/
def empty : Code := ⟨#[]⟩

/-- The address that the next instruction will get. -/
def nextAddress (c : Code) : Nat := c.instructions.size

/-- The instruction at an address. -/
def get? (c : Code) (address : Nat) : Option Instruction := c.instructions[address]?

/-- Append an instruction and answer its address. -/
def emit (c : Code) (i : Instruction) : Nat × Code :=
  (c.instructions.size, ⟨c.instructions.push i⟩)

/-- A natural number as an offset, where it is one. -/
def offset? (n : Nat) : Option Int := Word.checked n

/-- The instruction with one field overwritten. -/
def patched (i : Instruction) (field : Field) (value : Nat) : Except PatchError Instruction :=
  match field with
  | .level => .ok { i with level := value }
  | .offset =>
    match offset? value with
    | some n => .ok { i with offset := .number n }
    | none => .error .tooLarge

/-- Overwrite one field of an emitted instruction. -/
def patch (c : Code) (address : Nat) (field : Field) (value : Nat) : Except PatchError Code :=
  match c.instructions[address]? with
  | none => .error (.unemitted address)
  | some i =>
    match patched i field value with
    | .ok i => .ok ⟨c.instructions.setIfInBounds address i⟩
    | .error e => .error e

theorem address_emit (c : Code) (i : Instruction) : (c.emit i).1 = c.nextAddress := rfl

theorem getElem?_emit_self (c : Code) (i : Instruction) :
    (c.emit i).2.get? c.nextAddress = some i := by
  simp [emit, get?, nextAddress]

theorem getElem?_emit_of_lt {c : Code} {a : Nat} (h : a < c.nextAddress) (i : Instruction) :
    (c.emit i).2.get? a = c.get? a := by
  simp only [emit, get?, nextAddress] at *
  rw [Array.getElem?_push_lt h, Array.getElem?_eq_getElem h]

end Code

end PL0
