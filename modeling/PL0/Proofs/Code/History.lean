import PL0.Code

/-!
# `Code.History` — the buffer and the calls that filled it

The buffer is filled by calls that emit and calls that patch (`Code.Call`); some of the patches it
refuses. What it holds is read off these calls alone: a `History` keeps the instructions as they
were emitted and the patches that were admitted. An instruction stands at the address that was
announced for it, with the operation that it was emitted with; either of its fields has the value
that was last patched into it, or else the one that it was emitted with (`History.written`).

`Patch.apply_eq` says all that a patch does. `InStep.apply` carries the history through one call,
`InStep.after` through any number of them. Main statement: `Code.reflects_history`.
-/

namespace PL0

namespace Code

/-- A value for one field of the instruction at an address. -/
structure Patch where
  address : Nat
  field : Field
  value : Nat
deriving DecidableEq

/-! ## One instruction more, or one changed -/

theorem nextAddress_emit (c : Code) (i : Instruction) :
    (c.emit i).2.nextAddress = c.nextAddress + 1 := Array.size_push _

/-- The buffer with the instruction at an address changed, where there is one. -/
def overwrite (c : Code) (address : Nat) (change : Instruction → Instruction) : Code :=
  ⟨c.instructions.modify address change⟩

theorem nextAddress_overwrite (c : Code) (address : Nat) (change : Instruction → Instruction) :
    (c.overwrite address change).nextAddress = c.nextAddress := Array.size_modify

theorem get?_overwrite (c : Code) (address : Nat) (change : Instruction → Instruction) (a : Nat) :
    (c.overwrite address change).get? a =
      if address = a then (c.get? a).map change else c.get? a :=
  Array.getElem?_modify

theorem get?_eq_none_iff {c : Code} {a : Nat} : c.get? a = none ↔ c.nextAddress ≤ a :=
  Array.getElem?_eq_none_iff

theorem ext_get? {c c' : Code} (h : ∀ a, c.get? a = c'.get? a) : c = c' := by
  obtain ⟨is⟩ := c
  obtain ⟨is'⟩ := c'
  exact congrArg Code.mk (Array.ext_getElem? h)

theorem setIfInBounds_eq_overwrite {c : Code} {address : Nat} {i : Instruction}
    (hi : c.get? address = some i) (change : Instruction → Instruction) :
    ⟨c.instructions.setIfInBounds address (change i)⟩ = c.overwrite address change := by
  have haddress : address < c.instructions.size := (Array.getElem?_eq_some_iff.1 hi).1
  refine ext_get? fun a => ?_
  rw [get?_overwrite]
  by_cases ha : address = a
  · subst ha
    rw [if_pos rfl, hi]
    exact Array.getElem?_setIfInBounds_self.trans (if_pos haddress)
  · rw [if_neg ha]
    exact Array.getElem?_setIfInBounds_ne ha

/-- Changes of different instructions may change places, and so may changes of one instruction that
    do not touch each other. -/
theorem overwrite_comm (c : Code) {a b : Nat} {f g : Instruction → Instruction}
    (h : a ≠ b ∨ ∀ i, f (g i) = g (f i)) :
    (c.overwrite a f).overwrite b g = (c.overwrite b g).overwrite a f := by
  refine ext_get? fun x => ?_
  simp only [get?_overwrite]
  by_cases ha : a = x
  · by_cases hb : b = x
    · have hcomm : ∀ i, f (g i) = g (f i) := h.resolve_left fun hne => hne (ha.trans hb.symm)
      simp only [if_pos ha, if_pos hb, Option.map_map]
      exact congrArg (fun change => (c.get? x).map change) (funext fun i => (hcomm i).symm)
    · simp only [if_pos ha, if_neg hb]
  · simp only [if_neg ha]

/-! ## One patch -/

theorem offset?_eq (n : Nat) :
    offset? n = if (n : Int) ≤ Word.greatest then some (n : Int) else none := by
  have hleast : Word.least ≤ (n : Int) := Int.le_trans (by decide) (Int.natCast_nonneg n)
  simp only [offset?, Word.checked, Word.InRange, hleast, true_and]

namespace Patch

/-- The buffer after the patch, or why it is refused. -/
def apply (p : Patch) (c : Code) : Except PatchError Code := c.patch p.address p.field p.value

/-- The value is one for the field: only for an offset it may be too great. -/
def Fits (p : Patch) : Prop := p.field = .offset → (p.value : Int) ≤ Word.greatest

instance (p : Patch) : Decidable p.Fits :=
  inferInstanceAs (Decidable (p.field = .offset → (p.value : Int) ≤ Word.greatest))

/-- The instruction with the value in the field. -/
def on (p : Patch) (i : Instruction) : Instruction :=
  match p.field with
  | .level => { i with level := p.value }
  | .offset => { i with offset := .number p.value }

/-- The patches are of different addresses or of different fields. -/
def Apart (p q : Patch) : Prop := p.address ≠ q.address ∨ p.field ≠ q.field

variable {p q : Patch}

theorem patched_eq (p : Patch) (i : Instruction) :
    patched i p.field p.value = if p.Fits then .ok (p.on i) else .error .tooLarge := by
  obtain ⟨address, field, value⟩ := p
  cases field with
  | level => simp [patched, Fits, on]
  | offset =>
    by_cases hvalue : (value : Int) ≤ Word.greatest
    · simp [patched, offset?_eq, Fits, on, hvalue]
    · simp [patched, offset?_eq, Fits, hvalue]

/-- **What a patch does.** The address is looked at first, then the value. -/
theorem apply_eq (p : Patch) (c : Code) : p.apply c =
    if p.address < c.nextAddress then
      if p.Fits then .ok (c.overwrite p.address p.on) else .error .tooLarge
    else .error (.unemitted p.address) := by
  unfold apply patch
  by_cases haddress : p.address < c.nextAddress
  · obtain ⟨i, hi⟩ : ∃ i, c.get? p.address = some i := ⟨_, Array.getElem?_eq_getElem haddress⟩
    have hget : c.instructions[p.address]? = some i := hi
    rw [if_pos haddress, hget]
    simp only [patched_eq]
    by_cases hfits : p.Fits
    · simp only [if_pos hfits, setIfInBounds_eq_overwrite hi]
    · simp only [if_neg hfits]
  · have hget : c.instructions[p.address]? = none := Array.getElem?_eq_none (Nat.not_lt.1 haddress)
    rw [if_neg haddress, hget]

theorem on_comm (h : p.field ≠ q.field) (i : Instruction) : p.on (q.on i) = q.on (p.on i) := by
  unfold on
  cases hp : p.field <;> cases hq : q.field <;> simp_all

theorem Apart.overwrite_comm (h : p.Apart q) (c : Code) :
    (c.overwrite p.address p.on).overwrite q.address q.on =
      (c.overwrite q.address q.on).overwrite p.address p.on :=
  c.overwrite_comm (h.imp_right on_comm)

/-! ### In place

On the buffer itself a patch takes two steps: it locates the instruction, then it writes the field.
What has been written when a step fails stays written. -/

/-- Look for the instruction at the address. -/
def locate (p : Patch) : EStateM PatchError Code Unit := do
  unless p.address < (← get).nextAddress do
    throw (.unemitted p.address)

/-- Write the field of the instruction there; a number becomes an operand first, if it can. -/
def write (p : Patch) : EStateM PatchError Code Unit :=
  match p.field with
  | .level => modify fun c => c.overwrite p.address fun i => { i with level := p.value }
  | .offset =>
    match offset? p.value with
    | some n => modify fun c => c.overwrite p.address fun i => { i with offset := .number n }
    | none => throw .tooLarge

/-- The patch, on the buffer in place. -/
def inPlace (p : Patch) : EStateM PatchError Code Unit := do
  p.locate
  p.write

theorem locate_apply (p : Patch) (c : Code) : p.locate c =
    if p.address < c.nextAddress then .ok () c else .error (.unemitted p.address) c := by
  show (if p.address < c.nextAddress then pure () else throw (.unemitted p.address) :
    EStateM PatchError Code Unit) c = _
  split <;> rfl

theorem write_apply (p : Patch) (c : Code) : p.write c =
    if p.Fits then .ok () (c.overwrite p.address p.on) else .error .tooLarge c := by
  obtain ⟨address, field, value⟩ := p
  cases field with
  | level => exact (if_pos fun h => nomatch h).symm
  | offset =>
    show (match offset? value with
      | some n => modify fun c => c.overwrite address fun i => { i with offset := .number n }
      | none => throw .tooLarge : EStateM PatchError Code Unit) c = _
    rw [offset?_eq]
    by_cases hvalue : (value : Int) ≤ Word.greatest
    · have hfits : Fits ⟨address, .offset, value⟩ := fun _ => hvalue
      rw [if_pos hvalue, if_pos hfits]
      rfl
    · have hfits : ¬ Fits ⟨address, .offset, value⟩ := fun h => hvalue (h rfl)
      rw [if_neg hvalue, if_neg hfits]
      rfl

/-- **In place, a patch does the same**, and one that is refused has written nothing. -/
theorem inPlace_apply (p : Patch) (c : Code) : p.inPlace c =
    match p.apply c with
    | .ok c' => .ok () c'
    | .error e => .error e c := by
  show EStateM.bind p.locate (fun _ => p.write) c = _
  unfold EStateM.bind
  rw [locate_apply, apply_eq]
  by_cases haddress : p.address < c.nextAddress
  · simp only [if_pos haddress, write_apply]
    by_cases hfits : p.Fits
    · simp only [if_pos hfits]
    · simp only [if_neg hfits]
  · simp only [if_neg haddress]

end Patch

/-! ## Calls and their history -/

/-- A call that may change the buffer. -/
inductive Call where
  | emit (i : Instruction)
  | patch (p : Patch)
deriving DecidableEq

/-- The buffer after a call. -/
def Call.apply (c : Code) : Call → Code
  | emit i => (c.emit i).2
  | patch p =>
    match p.apply c with
    | .ok c' => c'
    | .error _ => c

theorem Call.apply_of_ok {c c' : Code} {p : Patch} (h : p.apply c = .ok c') :
    Call.apply c (.patch p) = c' := by
  simp only [Call.apply, h]

theorem Call.apply_of_error {c : Code} {p : Patch} {e : PatchError} (h : p.apply c = .error e) :
    Call.apply c (.patch p) = c := by
  simp only [Call.apply, h]

/-- The buffer after a sequence of calls. -/
def after (c : Code) (calls : List Call) : Code := calls.foldl Call.apply c

/-- What calls have done: the instructions as they were emitted, oldest first, and the patches that
    were admitted, newest first. -/
structure History where
  emitted : List Instruction
  patches : List Patch

namespace History

def empty : History := ⟨[], []⟩

/-- A patch is admitted where its address is taken and its value fits the field. -/
def Admits (h : History) (p : Patch) : Prop := p.address < h.emitted.length ∧ p.Fits

instance (h : History) (p : Patch) : Decidable (h.Admits p) :=
  inferInstanceAs (Decidable (p.address < h.emitted.length ∧ p.Fits))

/-- Why a patch that is not admitted is refused. -/
def refusal (h : History) (p : Patch) : PatchError :=
  if p.address < h.emitted.length then .tooLarge else .unemitted p.address

/-- The history after a call. -/
def note (h : History) : Call → History
  | .emit i => { h with emitted := h.emitted ++ [i] }
  | .patch p => if h.Admits p then { h with patches := p :: h.patches } else h

/-- The history after a sequence of calls. -/
def after (h : History) (calls : List Call) : History := calls.foldl note h

/-- The value that was last patched into a field. -/
def last? (h : History) (address : Nat) (field : Field) : Option Nat :=
  (h.patches.find? fun p => p.address = address ∧ p.field = field).map (·.value)

/-- What has become of the instruction that was emitted as `i`. -/
def written (h : History) (address : Nat) (i : Instruction) : Instruction where
  op := i.op
  level := (h.last? address .level).getD i.level
  offset := ((h.last? address .offset).map fun n => .number n).getD i.offset

variable {h : History} {a : Nat}

/-- An instruction is emitted with the fields that it has. -/
theorem written_of_ge (hpatches : ∀ p ∈ h.patches, p.address < h.emitted.length)
    (ha : h.emitted.length ≤ a) (i : Instruction) : h.written a i = i := by
  -- As nothing was emitted at `a` before, no patch of `a` has been admitted.
  have hlast (field : Field) : h.last? a field = none := by
    unfold last?
    rw [Option.map_eq_none_iff, List.find?_eq_none]
    intro p hp
    have hne : p.address ≠ a := Nat.ne_of_lt (Nat.lt_of_lt_of_le (hpatches p hp) ha)
    simp [hne]
  unfold written
  rw [hlast, hlast]
  rfl

theorem written_patch (h : History) (p : Patch) (a : Nat) (i : Instruction) :
    written { h with patches := p :: h.patches } a i =
      if p.address = a then p.on (h.written a i) else h.written a i := by
  by_cases ha : p.address = a
  · rw [if_pos ha]
    cases hfield : p.field <;> simp [written, last?, Patch.on, ha, hfield]
  · simp [written, last?, ha]

theorem note_of_admits {p : Patch} (hp : h.Admits p) :
    h.note (.patch p) = { h with patches := p :: h.patches } := if_pos hp

theorem note_of_not_admits {p : Patch} (hp : ¬ h.Admits p) : h.note (.patch p) = h := if_neg hp

theorem emitted_note (h : History) (call : Call) : h.emitted <+: (h.note call).emitted := by
  cases call with
  | emit i => exact List.prefix_append _ _
  | patch p =>
    have hemitted : (h.note (.patch p)).emitted = h.emitted := by
      by_cases hp : h.Admits p
      · rw [note_of_admits hp]
      · rw [note_of_not_admits hp]
    exact hemitted ▸ List.prefix_refl _

/-- Nothing that was emitted is lost or moved. -/
theorem emitted_after (h : History) (calls : List Call) :
    h.emitted <+: (h.after calls).emitted := by
  induction calls generalizing h with
  | nil => exact List.prefix_refl _
  | cons call calls ih => exact (h.emitted_note call).trans (ih (h.note call))

end History

/-! ## Every sequence of calls -/

/-- The buffer holds the instructions of its history, as they have been patched. -/
structure InStep (c : Code) (h : History) : Prop where
  nextAddress : c.nextAddress = h.emitted.length
  get? : ∀ a, c.get? a = h.emitted[a]?.map (h.written a)
  patches : ∀ p ∈ h.patches, p.address < h.emitted.length

theorem inStep_empty : empty.InStep History.empty where
  nextAddress := rfl
  get? := fun _ => rfl
  patches := fun _ hp => nomatch hp

namespace InStep

variable {c : Code} {h : History}

theorem emit (hc : c.InStep h) (i : Instruction) : (c.emit i).2.InStep (h.note (.emit i)) where
  nextAddress := by
    show (c.emit i).2.nextAddress = (h.emitted ++ [i]).length
    rw [nextAddress_emit, hc.nextAddress, List.length_append, List.length_singleton]
  get? := by
    intro a
    show (c.emit i).2.get? a = (h.emitted ++ [i])[a]?.map (h.written a)
    -- Before the announced address all is as it was; there is the instruction; behind it, nothing.
    rcases Nat.lt_trichotomy a c.nextAddress with hlt | rfl | hgt
    · have hlt' : a < h.emitted.length := hc.nextAddress ▸ hlt
      rw [getElem?_emit_of_lt hlt, hc.get?, List.getElem?_append_left hlt']
    · rw [getElem?_emit_self, hc.nextAddress, List.getElem?_concat_length, Option.map_some,
        History.written_of_ge hc.patches (Nat.le_refl _)]
    · have hnone : (c.emit i).2.get? a = none :=
        get?_eq_none_iff.2 ((nextAddress_emit c i).symm ▸ hgt)
      have hlength : (h.emitted ++ [i]).length ≤ a := by
        rw [List.length_append, List.length_singleton, ← hc.nextAddress]
        exact hgt
      rw [hnone, List.getElem?_eq_none hlength, Option.map_none]
  patches := by
    intro p hp
    show p.address < (h.emitted ++ [i]).length
    rw [List.length_append]
    exact Nat.lt_add_right _ (hc.patches p hp)

theorem overwrite (hc : c.InStep h) {p : Patch} (hp : h.Admits p) :
    (c.overwrite p.address p.on).InStep { h with patches := p :: h.patches } where
  nextAddress := (nextAddress_overwrite _ _ _).trans hc.nextAddress
  get? := by
    intro a
    have hwritten : History.written { h with patches := p :: h.patches } a =
        fun i => if p.address = a then p.on (h.written a i) else h.written a i :=
      funext (h.written_patch p a)
    rw [get?_overwrite, hc.get?, hwritten]
    by_cases ha : p.address = a
    · simp only [if_pos ha, Option.map_map]
      rfl
    · simp only [if_neg ha]
  patches := List.forall_mem_cons.2 ⟨hp.1, hc.patches⟩

theorem apply_of_admits (hc : c.InStep h) {p : Patch} (hp : h.Admits p) :
    p.apply c = .ok (c.overwrite p.address p.on) := by
  rw [Patch.apply_eq, hc.nextAddress, if_pos hp.1, if_pos hp.2]

theorem apply_of_not_admits (hc : c.InStep h) {p : Patch} (hp : ¬ h.Admits p) :
    p.apply c = .error (h.refusal p) := by
  rw [Patch.apply_eq, hc.nextAddress]
  unfold History.refusal
  by_cases haddress : p.address < h.emitted.length
  · have hfits : ¬ p.Fits := fun hfits => hp ⟨haddress, hfits⟩
    simp only [if_pos haddress, if_neg hfits]
  · simp only [if_neg haddress]

/-- **One call** keeps the buffer in step with its history. -/
theorem apply (hc : c.InStep h) (call : Call) : (call.apply c).InStep (h.note call) := by
  cases call with
  | emit i => exact hc.emit i
  | patch p =>
    by_cases hp : h.Admits p
    · rw [Call.apply_of_ok (hc.apply_of_admits hp), History.note_of_admits hp]
      exact hc.overwrite hp
    · rw [Call.apply_of_error (hc.apply_of_not_admits hp), History.note_of_not_admits hp]
      exact hc

theorem after (hc : c.InStep h) (calls : List Call) : (c.after calls).InStep (h.after calls) := by
  induction calls generalizing c h with
  | nil => exact hc
  | cons call calls ih => exact ih (hc.apply call)

end InStep

/-- **The buffer is what its history says.** -/
structure Reflects (c : Code) (h : History) : Prop where
  /-- An instruction gets the address that was announced, the number of those emitted before. -/
  address : ∀ i, (c.emit i).1 = c.nextAddress ∧ c.nextAddress = h.emitted.length
  /-- The address stands for this instruction, whatever is called later. -/
  forever : ∀ i later, ((c.emit i).2.after later).get? (c.emit i).1 =
    some (((h.note (.emit i)).after later).written (c.emit i).1 i)
  /-- Every address holds the instruction emitted there, with its operation, and with the value last
      written in each of its fields; where none was emitted there is none. -/
  contents : ∀ a, c.get? a = h.emitted[a]?.map (h.written a)
  /-- A patch succeeds where it is admitted. -/
  admits : ∀ p, h.Admits p ↔ ∃ c', p.apply c = .ok c' ∧ p.inPlace c = .ok () c'
  /-- Any other is refused and leaves the whole buffer as it was. -/
  refuses : ∀ p, ¬ h.Admits p →
    p.apply c = .error (h.refusal p) ∧ p.inPlace c = .error (h.refusal p) c
  /-- Two patches of different addresses or of different fields may change places. -/
  commutes : ∀ p q : Patch, p.Apart q → h.Admits p → h.Admits q → ∃ c₁ c₂ c',
    p.apply c = .ok c₁ ∧ q.apply c₁ = .ok c' ∧ q.apply c = .ok c₂ ∧ p.apply c₂ = .ok c'

namespace InStep

variable {c : Code} {h : History}

theorem forever (hc : c.InStep h) (i : Instruction) (later : List Call) :
    ((c.emit i).2.after later).get? (c.emit i).1 =
      some (((h.note (.emit i)).after later).written (c.emit i).1 i) := by
  have haddress : (c.emit i).1 = h.emitted.length := hc.nextAddress
  have hfirst : (h.note (.emit i)).emitted[h.emitted.length]? = some i := List.getElem?_concat_length
  have hlater : ((h.note (.emit i)).after later).emitted[h.emitted.length]? = some i := by
    obtain ⟨is, his⟩ := (h.note (.emit i)).emitted_after later
    rw [← his, List.getElem?_append_left (List.getElem?_eq_some_iff.1 hfirst).1, hfirst]
  rw [((hc.emit i).after later).get?, haddress, hlater, Option.map_some]

theorem admits_iff (hc : c.InStep h) (p : Patch) :
    h.Admits p ↔ ∃ c', p.apply c = .ok c' ∧ p.inPlace c = .ok () c' := by
  constructor
  · intro hp
    refine ⟨_, hc.apply_of_admits hp, ?_⟩
    rw [p.inPlace_apply, hc.apply_of_admits hp]
  · rintro ⟨c', hok, -⟩
    refine Decidable.byContradiction fun hp => ?_
    rw [hc.apply_of_not_admits hp] at hok
    cases hok

/-- A patch takes nothing from what is admitted: each of the two succeeds behind the other. -/
theorem commutes (hc : c.InStep h) {p q : Patch} (hapart : p.Apart q) (hp : h.Admits p)
    (hq : h.Admits q) : ∃ c₁ c₂ c',
      p.apply c = .ok c₁ ∧ q.apply c₁ = .ok c' ∧ q.apply c = .ok c₂ ∧ p.apply c₂ = .ok c' := by
  refine ⟨_, _, _, hc.apply_of_admits hp, (hc.overwrite hp).apply_of_admits hq,
    hc.apply_of_admits hq, ?_⟩
  rw [(hc.overwrite hq).apply_of_admits hp, hapart.overwrite_comm]

end InStep

/-- **Emitted instructions stay where they are, and the last write to a field wins.** After any
    sequence of calls the buffer is what the history of these calls says. -/
theorem reflects_history (calls : List Call) :
    (empty.after calls).Reflects (History.empty.after calls) := by
  have hc : (empty.after calls).InStep (History.empty.after calls) := inStep_empty.after calls
  constructor
  case address => exact fun i => ⟨address_emit _ i, hc.nextAddress⟩
  case forever => exact hc.forever
  case contents => exact hc.get?
  case admits => exact hc.admits_iff
  case refuses =>
    intro p hp
    rw [p.inPlace_apply, hc.apply_of_not_admits hp]
    exact ⟨rfl, rfl⟩
  case commutes => exact fun p q => hc.commutes

/-- An operator gives way to a number; what is refused in between leaves no trace. -/
example : empty.after [.patch ⟨0, .level, 1⟩, .emit (.apply .odd), .patch ⟨0, .offset, 7⟩,
    .patch ⟨0, .offset, 2 ^ 63⟩, .patch ⟨0, .level, 2 ^ 63⟩, .patch ⟨0, .offset, 5⟩] =
      ⟨#[.make .opr (2 ^ 63) 5]⟩ := by
  decide

end Code

end PL0
