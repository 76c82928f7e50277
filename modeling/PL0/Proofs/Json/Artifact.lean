import PL0.CommandLine
import PL0.Proofs.Json.RoundTrip

/-!
# `Json.Artifact` — code survives being an artifact

The document of a list of instructions is a valid one, so it is read back (`Json.read?_pretty`), and
each part of an instruction is found in its member: an operation and an operator by their names, a
level and a numeric offset as integers. An offset is a number or a string in the document, so the
two kinds of operands are never taken for each other. What an artifact cannot hold are levels and
numbers beyond 64 bits (`Instruction.Fits`).
-/

namespace PL0

/-- A numeric offset is a word. -/
def Operand.InRange : Operand → Prop
  | number n => Word.InRange n
  | operator _ => True

instance : DecidablePred Operand.InRange
  | .number n => inferInstanceAs (Decidable (Word.InRange n))
  | .operator _ => inferInstanceAs (Decidable True)

/-- The level is an unsigned and the offset a signed 64-bit integer, or an operator. -/
structure Instruction.Fits (i : Instruction) : Prop where
  level : i.level ≤ Artifact.maxLevel
  offset : i.offset.InRange

instance : DecidablePred Instruction.Fits := fun i =>
  decidable_of_iff (i.level ≤ Artifact.maxLevel ∧ i.offset.InRange)
    ⟨fun h => ⟨h.1, h.2⟩, fun h => ⟨h.level, h.offset⟩⟩

namespace Artifact

/-! ## The document of some code -/

/-- The keys of an instruction are written without escapes. -/
theorem escape_keys : ∀ key ∈ ["op", "level", "offset"], Json.escape key = key := by
  decide

/-- So each key is a literal, and read as itself. -/
theorem isBody_key {key : String} (h : key ∈ ["op", "level", "offset"]) :
    Json.IsBody key.toList := by
  rw [← escape_keys key h]
  exact Json.isBody_escape key

theorem literalText?_key {key : String} (h : key ∈ ["op", "level", "offset"]) :
    Json.literalText? key = some key := by
  have htext := Json.literalText?_escape key
  rwa [escape_keys key h] at htext

/-- **The document of an instruction is valid**, as it is made of texts and integers. -/
theorem valid_ofInstruction (i : Instruction) : (ofInstruction i).Valid := by
  have hoperand : (ofOperand i.offset).Valid := by
    cases i.offset with
    | number n => exact Json.valid_ofInt n
    | operator op => exact Json.valid_ofText op.symbol
  exact ⟨isBody_key (by decide), Json.valid_ofText _, isBody_key (by decide), Json.valid_ofNat _,
    isBody_key (by decide), hoperand, trivial⟩

theorem valid_document (code : List Instruction) : (Json.array (code.map ofInstruction)).Valid := by
  show Json.ValidItems (code.map ofInstruction)
  induction code with
  | nil => trivial
  | cons i is ih => exact ⟨valid_ofInstruction i, ih⟩

/-! ## Instructions found in their documents

What is written for each part of an instruction is read as this part. Only levels and numbers can be
out of range, so only they need a hypothesis. -/

theorem name?_ofText (text : String) : name? (Json.ofText text) = some text :=
  Json.text?_ofText text

/-- Operations are found by their names, of which no two are the same. -/
theorem opCode?_ofText (op : OpCode) : opCode? (Json.ofText op.mnemonic) = some op := by
  unfold opCode?
  rw [name?_ofText]
  exact OpCode.ofMnemonic?_mnemonic op

/-- A level in range is read as it is. -/
theorem level?_ofNat {n : Nat} (h : n ≤ maxLevel) : level? (Json.ofNat n) = some n := by
  unfold level?
  rw [Json.integer?_ofNat]
  have hrange : (0 : Int) ≤ n ∧ (n : Int) ≤ maxLevel := ⟨by omega, by omega⟩
  simp [hrange]

/-- An offset is first tried as an integer. The symbol of an operator is none, so it is tried as a
    symbol next. -/
theorem operand?_ofOperand {o : Operand} (h : o.InRange) : operand? (ofOperand o) = some o := by
  cases o with
  | number n =>
    unfold operand? ofOperand
    rw [Json.integer?_ofInt]
    simp [Word.checked_eq_some_iff.2 ⟨h, rfl⟩]
  | operator op =>
    have hinteger : (Json.ofText op.symbol).integer? = none := rfl
    unfold operand? ofOperand
    dsimp only
    rw [hinteger, name?_ofText]
    simp [Operator.ofSymbol?_symbol]

/-- The three members are found under their keys, and there are no others. -/
theorem instruction?_ofInstruction {i : Instruction} (h : i.Fits) :
    instruction? (ofInstruction i) = some i := by
  -- The reader unescapes the keys before it looks for them.
  have hmembers : keyed? [.mk "op" (Json.ofText i.op.mnemonic), .mk "level" (Json.ofNat i.level),
      .mk "offset" (ofOperand i.offset)] = some [("op", Json.ofText i.op.mnemonic),
      ("level", Json.ofNat i.level), ("offset", ofOperand i.offset)] := by
    have hop : Json.literalText? "op" = some "op" := literalText?_key (by decide)
    have hlevel : Json.literalText? "level" = some "level" := literalText?_key (by decide)
    have hoffset : Json.literalText? "offset" = some "offset" := literalText?_key (by decide)
    simp [keyed?, Json.Member.key, Json.Member.value, hop, hlevel, hoffset]
  unfold instruction? ofInstruction
  dsimp only
  rw [hmembers]
  simp [only?, assemble?, opCode?_ofText, level?_ofNat h.level, operand?_ofOperand h.offset]

/-- One instruction after the other. -/
theorem instructions?_map {code : List Instruction} (h : ∀ i ∈ code, i.Fits) :
    instructions? (code.map ofInstruction) = some code := by
  induction code with
  | nil => rfl
  | cons i is ih =>
    have hi := instruction?_ofInstruction (h i (List.mem_cons_self ..))
    have his := ih fun j hj => h j (List.mem_cons_of_mem _ hj)
    rw [List.map_cons, instructions?, hi, his]
    rfl

/-- **Code is read back from its artifact**, so executing an artifact is executing the code that it
    was written from. -/
theorem read_of_write (code : List Instruction) (h : ∀ i ∈ code, i.Fits) :
    read? (write code) = some code ∧
    (Form.artifact (write code)).compile = (Form.code code).compile ∧
    ∀ path input, (Command.exec path input).perform (write code) =
      Command.execution (pure code.toArray) input := by
  have hread : read? (write code) = some code := by
    unfold read? write
    rw [Json.read?_pretty (valid_document code)]
    exact instructions?_map h
  have hload : Toolchain.load (write code) = pure code.toArray := by
    unfold Toolchain.load
    rw [hread]
  refine ⟨hread, hload, fun path input => ?_⟩
  show Command.execution (Toolchain.load (write code)) input = _
  rw [hload]

/-- The extreme level and offset, and operators where the machine has no use for them. -/
def extremes : List Instruction :=
  [⟨.cal, 18446744073709551615, .number (-9223372036854775808)⟩,
    ⟨.lit, 0, .number 9223372036854775807⟩, ⟨.jmp, 1, .operator (.relation .le)⟩,
    ⟨.sto, 0, .operator .odd⟩]

/-- What fits is read back up to the bounds. -/
theorem extremes_read : (∀ i ∈ extremes, i.Fits) ∧ read? (write extremes) = some extremes := by
  have hfits : ∀ i ∈ extremes, i.Fits := by decide
  exact ⟨hfits, (read_of_write extremes hfits).1⟩

end Artifact

end PL0
