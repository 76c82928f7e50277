import Mathlib
import PL0.Instruction
import PL0.Proofs.Lines
import PL0.Proofs.Numeral

/-!
# `Listing` — the listing shows the code

`Instruction.listing` writes each instruction on a line of its own (`listing_eq`), with its address
in front. The addresses share a width, that of the greatest, so all of them fit and the colons
behind them stand in one column (`isRow_row`).

An instruction is shown in a way that determines it (`display_inj`): a blank ends the operation and
the level, and an operator is told from a number by having no digits. So a listing determines the
code. The main statement is `Instruction.listing_faithful`, for all levels and offsets, with any
operator behind any operation.
-/

namespace PL0

/-! ## Instructions as they are shown

An instruction is shown as its mnemonic, its level and its offset with blanks between them.
Mnemonics and levels have no blanks, so the first two blanks are where the parts end. -/

/-- Mnemonics are read back, so no two are the same. -/
theorem OpCode.mnemonic_inj {op op' : OpCode} : op.mnemonic = op'.mnemonic ↔ op = op' := by
  constructor
  · intro h
    have hread := OpCode.ofMnemonic?_mnemonic op
    rw [h, OpCode.ofMnemonic?_mnemonic] at hread
    exact (Option.some.inj hread).symm
  · exact fun h => congrArg mnemonic h

/-- A mnemonic consists of letters. -/
theorem OpCode.isAlpha_mnemonic (op : OpCode) : ∀ c ∈ op.mnemonic.toList, c.isAlpha := by
  have hall : op.mnemonic.toList.all Char.isAlpha := by cases op <;> decide
  exact List.all_eq_true.1 hall

/-- Symbols are read back likewise. -/
theorem Operator.symbol_inj {op op' : Operator} : op.symbol = op'.symbol ↔ op = op' := by
  constructor
  · intro h
    have hread := Operator.ofSymbol?_symbol op
    rw [h, Operator.ofSymbol?_symbol] at hread
    exact (Option.some.inj hread).symm
  · exact fun h => congrArg symbol h

/-- A symbol has neither digits nor line breaks. -/
theorem Operator.symbol_chars (op : Operator) :
    ∀ c ∈ op.symbol.toList, c.isDigit = false ∧ c ≠ '\n' := by
  have hall : op.symbol.toList.all fun c => !c.isDigit && c != '\n' := by
    cases op with
    | arith op => cases op <;> decide
    | relation r => cases r <;> decide
    | odd => decide
  intro c hc
  simpa using List.all_eq_true.1 hall c hc

/-- No operator is written like a number; a minus alone is an operator. -/
theorem Operator.symbol_ne_toString (op : Operator) (n : Int) : op.symbol ≠ toString n := by
  intro h
  obtain ⟨c, hc, hdigit⟩ := (Decimal.denotes_toString n).exists_digit
  rw [← h] at hc
  obtain ⟨hnone, -⟩ := op.symbol_chars c hc
  rw [hdigit] at hnone
  cases hnone

/-- An offset is shown as a number or as a symbol, and never as both. -/
theorem Operand.display_inj {o o' : Operand} : o.display = o'.display ↔ o = o' := by
  cases o with
  | number n =>
    cases o' with
    | number m => simp [display, Int.repr_inj]
    | operator op => simpa [display] using (op.symbol_ne_toString n).symm
  | operator op =>
    cases o' with
    | number m => simpa [display] using op.symbol_ne_toString m
    | operator op' => simp [display, Operator.symbol_inj]

/-- No part of an instruction breaks the line. -/
theorem Operand.newline_not_mem_display (o : Operand) : '\n' ∉ o.display.toList := by
  cases o with
  | number n => exact Decimal.not_mem_toString (by decide) n
  | operator op => exact fun hmem => (op.symbol_chars _ hmem).2 rfl

namespace Instruction

variable {i j : Instruction} {width a : Nat} {code : List Instruction}

/-- The characters of a shown instruction. -/
theorem toList_display (i : Instruction) : i.display.toList =
    i.op.mnemonic.toList ++
      ' ' :: ((toString i.level).toList ++ ' ' :: i.offset.display.toList) := by
  show (i.op.mnemonic ++ " " ++ toString i.level ++ " " ++ i.offset.display).toList = _
  simp

/-- **An instruction is shown in a way of its own.** -/
theorem display_inj : i.display = j.display ↔ i = j := by
  have hmnemonic (op : OpCode) : ' ' ∉ op.mnemonic.toList :=
    fun hmem => absurd (op.isAlpha_mnemonic _ hmem) (by decide)
  have hlevel (n : Nat) : ' ' ∉ (toString n).toList :=
    Decimal.not_mem_toString_nat (by decide) n
  obtain ⟨op, level, offset⟩ := i
  obtain ⟨op', level', offset'⟩ := j
  rw [← String.toList_inj, toList_display, toList_display,
    append_cons_inj (hmnemonic op) (hmnemonic op'), append_cons_inj (hlevel level) (hlevel level'),
    String.toList_inj, String.toList_inj, String.toList_inj, OpCode.mnemonic_inj,
    Operand.display_inj]
  simp [Nat.repr_inj]

theorem newline_not_mem_display (i : Instruction) : '\n' ∉ i.display.toList := by
  have hmnemonic : '\n' ∉ i.op.mnemonic.toList :=
    fun hmem => absurd (i.op.isAlpha_mnemonic _ hmem) (by decide)
  have hlevel : '\n' ∉ (toString i.level).toList := Decimal.not_mem_toString_nat (by decide) _
  rw [toList_display]
  simp only [List.mem_append, List.mem_cons, not_or]
  exact ⟨hmnemonic, by decide, hlevel, by decide, i.offset.newline_not_mem_display⟩

/-! ## Rows

A row is a line without its break. All rows of a listing have the width of the last address, which
is the longest one. -/

/-- The row of the instruction at address `a`: the address right-aligned in `width` columns, the
    colon, which is the first of the row, and the instruction. -/
structure IsRow (width a : Nat) (i : Instruction) (row : String) : Prop where
  fits : (toString a).length ≤ width
  text : row = String.ofList (List.replicate (width - (toString a).length) ' ') ++ toString a ++
    ": " ++ i.display
  colon : row.toList.idxOf ':' = width
  unbroken : '\n' ∉ row.toList

/-- The line of an instruction without its line break. -/
def row (width a : Nat) (i : Instruction) : String :=
  String.ofList ((toString a).toList.leftpad width ' ') ++ ": " ++ i.display

theorem line_eq (width a : Nat) (i : Instruction) : i.line width a = i.row width a ++ "\n" := rfl

/-- **A row is what it should be**, provided that its address fits. -/
theorem isRow_row (h : (toString a).length ≤ width) (i : Instruction) :
    IsRow width a i (i.row width a) := by
  have hpad : (toString a).toList.leftpad width ' ' =
      List.replicate (width - (toString a).length) ' ' ++ (toString a).toList := by
    rw [List.leftpad, String.length_toList]
  have htext : i.row width a =
      String.ofList (List.replicate (width - (toString a).length) ' ') ++ toString a ++
        ": " ++ i.display := by
    rw [row, hpad, String.ofList_append, String.ofList_toList]
  -- What stands in front of the colon: blanks and digits, `width` of them.
  have hchars : (i.row width a).toList =
      (List.replicate (width - (toString a).length) ' ' ++ (toString a).toList) ++
        ':' :: ' ' :: i.display.toList := by
    rw [htext]
    simp
  have hfree {c : Char} (hblank : c ≠ ' ') (hdigit : c.isDigit = false) :
      c ∉ List.replicate (width - (toString a).length) ' ' ++ (toString a).toList := by
    rw [List.mem_append, not_or]
    exact ⟨fun hmem => hblank (List.eq_of_mem_replicate hmem),
      Decimal.not_mem_toString_nat hdigit a⟩
  refine ⟨h, htext, ?_, ?_⟩
  · rw [hchars, List.idxOf_append_of_notMem (hfree (by decide) (by decide)), List.idxOf_cons_self,
      List.length_append, List.length_replicate, String.length_toList]
    omega
  · rw [hchars, List.mem_append, List.mem_cons, List.mem_cons, not_or, not_or, not_or]
    exact ⟨hfree (by decide) (by decide), by decide, by decide, i.newline_not_mem_display⟩

/-- A row shows its instruction. -/
theorem row_inj : i.row width a = j.row width a ↔ i = j := by
  rw [row, row, String.append_right_inj, display_inj]

/-! ## Listings

The lines are the rows with line breaks behind them, and no row has one inside. So the text falls
into its rows in one way only. -/

/-- The rows of the listing. -/
def rows (code : List Instruction) : List String :=
  code.mapIdx fun a i => i.row (toString (code.length - 1)).length a

theorem length_rows (code : List Instruction) : (rows code).length = code.length :=
  List.length_mapIdx

/-- The address goes up with the lines. -/
theorem lines_eq (width a : Nat) (code : List Instruction) :
    lines width a code = code.mapIdx fun k i => i.row width (a + k) ++ "\n" := by
  induction code generalizing a with
  | nil => rfl
  | cons i code ih =>
    rw [lines, ih, List.mapIdx_cons, line_eq]
    simp only [Nat.add_zero, Nat.add_assoc, Nat.add_comm 1]

/-- A listing is its rows, each with a line break. -/
theorem listing_eq (code : List Instruction) :
    listing code = String.join ((rows code).map (· ++ "\n")) := by
  have hlines : lines (toString (code.length - 1)).length 0 code =
      (rows code).map (· ++ "\n") := by
    rw [lines_eq, rows]
    exact List.ext_getElem (by simp) (by simp)
  rw [listing, hlines]

/-- The row at each place shows the instruction there. -/
theorem isRow_rows {row : String} (hrow : (rows code)[a]? = some row) (hi : code[a]? = some i) :
    IsRow (toString (code.length - 1)).length a i row := by
  have ha : a < code.length := (List.getElem?_eq_some_iff.1 hi).1
  rw [rows, List.getElem?_mapIdx, hi] at hrow
  obtain rfl := Option.some.inj hrow
  exact isRow_row (Decimal.length_toString_le (Nat.le_sub_one_of_lt ha)) i

theorem isLine_rows : ∀ line ∈ (rows code).map (· ++ "\n"), IsLine line := by
  intro line hline
  obtain ⟨row, hrow, rfl⟩ := List.mem_map.1 hline
  obtain ⟨a, ha, rfl⟩ := List.getElem_of_mem hrow
  have hi : a < code.length := length_rows code ▸ ha
  exact isLine_append
    (isRow_rows (List.getElem?_eq_getElem ha) (List.getElem?_eq_getElem hi)).unbroken

theorem rows_inj {code' : List Instruction} (h : rows code = rows code') : code = code' := by
  have hlength : code.length = code'.length := by
    rw [← length_rows code, h, length_rows]
  -- Equally many rows have the same width, so they can be compared place by place.
  refine List.ext_getElem hlength ?_
  intro a ha ha'
  have hrow : (rows code)[a]? = (rows code')[a]? := by rw [h]
  rw [rows, rows, List.getElem?_mapIdx, List.getElem?_mapIdx, List.getElem?_eq_getElem ha,
    List.getElem?_eq_getElem ha', ← hlength] at hrow
  exact row_inj.1 (Option.some.inj hrow)

/-- **The listing shows the code.** It has one line for each instruction, with the address
    right-aligned in the width of the greatest one, so that the colons stand in one column. No two
    programs have the same listing. -/
theorem listing_faithful (code : List Instruction) :
    (∃ rows : List String, listing code = String.join (rows.map (· ++ "\n")) ∧
      rows.length = code.length ∧
      ∀ (a : Nat) (i : Instruction) (row : String), code[a]? = some i → rows[a]? = some row →
        IsRow (toString (code.length - 1)).length a i row) ∧
    ∀ code' : List Instruction, listing code' = listing code → code' = code := by
  refine ⟨⟨rows code, listing_eq code, length_rows code, ?_⟩, ?_⟩
  · intro a i row hi hrow
    exact isRow_rows hrow hi
  · intro code' h
    rw [listing_eq, listing_eq] at h
    have hlines := IsLine.join_inj isLine_rows isLine_rows h
    have hrows : rows code' = rows code :=
      List.map_injective_iff.2 (fun _ _ happend => String.append_left_inj _ |>.1 happend) hlines
    exact rows_inj hrows

/-- A minus and a number below zero behind the same operation. -/
example : listing [.apply (.arith .sub), .make .opr 0 (-1)] = "0: OPR 0 -\n1: OPR 0 -1\n" := by
  decide +kernel

end Instruction

end PL0
