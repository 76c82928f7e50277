/-!
# `Lines` — texts that are made of lines

A line ends at its only line break (`IsLine`). Texts that are written line by line can be taken
apart again: a text shows where each of its lines ends, and so determines them (`IsLine.join_inj`).
Inside a line the same holds of parts with a separator between them that the first part is free of
(`append_cons_inj`).
-/

namespace PL0

variable {α : Type} {a : α} {xs ys us vs : List α}

/-- What stands in front of the first `a` and what stands behind it are determined. -/
theorem append_cons_inj (hx : a ∉ xs) (hy : a ∉ ys) :
    xs ++ a :: us = ys ++ a :: vs ↔ xs = ys ∧ us = vs := by
  constructor
  · intro h
    induction xs generalizing ys with
    | nil =>
      cases ys with
      | nil => exact ⟨rfl, List.tail_eq_of_cons_eq h⟩
      | cons y ys =>
        have hhead : a = y := List.head_eq_of_cons_eq h
        exact absurd (hhead ▸ List.mem_cons_self) hy
    | cons x xs ih =>
      cases ys with
      | nil =>
        have hhead : x = a := List.head_eq_of_cons_eq h
        exact absurd (hhead ▸ List.mem_cons_self) hx
      | cons y ys =>
        obtain ⟨rfl, htail⟩ := List.cons.inj h
        obtain ⟨rfl, hrest⟩ :=
          ih (fun hmem => hx (List.mem_cons_of_mem _ hmem))
            (fun hmem => hy (List.mem_cons_of_mem _ hmem)) htail
        exact ⟨rfl, hrest⟩
  · rintro ⟨rfl, rfl⟩
    rfl

/-- The text ends with its only line break. -/
def IsLine (t : String) : Prop := ∃ cs, t.toList = cs ++ ['\n'] ∧ '\n' ∉ cs

theorem isLine_append {t : String} (h : '\n' ∉ t.toList) : IsLine (t ++ "\n") :=
  ⟨t.toList, String.toList_append, h⟩

namespace IsLine

variable {t u : String} {ts us : List String}

theorem ne_nil (h : IsLine t) : t.toList ≠ [] := by
  obtain ⟨cs, ht, -⟩ := h
  rw [ht]
  exact List.append_ne_nil_of_right_ne_nil _ (List.cons_ne_nil _ _)

/-- **The first line of a text** ends at the first line break. -/
theorem append_inj (ht : IsLine t) (hu : IsLine u) {cs ds : List Char}
    (h : t.toList ++ cs = u.toList ++ ds) : t = u ∧ cs = ds := by
  obtain ⟨front, htext, hfront⟩ := ht
  obtain ⟨front', hutext, hfront'⟩ := hu
  rw [htext, hutext, List.append_assoc, List.append_assoc] at h
  obtain ⟨rfl, hrest⟩ := (append_cons_inj hfront hfront').1 h
  exact ⟨String.toList_inj.1 (htext.trans hutext.symm), hrest⟩

/-- **A text determines its lines.** -/
theorem join_inj (hts : ∀ t ∈ ts, IsLine t) (hus : ∀ u ∈ us, IsLine u)
    (h : String.join ts = String.join us) : ts = us := by
  induction ts generalizing us with
  | nil =>
    cases us with
    | nil => rfl
    | cons u us =>
      have hnil : u.toList ++ (String.join us).toList = [] := by
        simpa using (congrArg String.toList h).symm
      exact absurd (List.append_eq_nil_iff.1 hnil).1 (hus u List.mem_cons_self).ne_nil
  | cons t ts ih =>
    obtain ⟨ht, hts⟩ := List.forall_mem_cons.1 hts
    cases us with
    | nil =>
      have hnil : t.toList ++ (String.join ts).toList = [] := by
        simpa using congrArg String.toList h
      exact absurd (List.append_eq_nil_iff.1 hnil).1 ht.ne_nil
    | cons u us =>
      obtain ⟨hu, hrest⟩ := List.forall_mem_cons.1 hus
      have happend : t.toList ++ (String.join ts).toList = u.toList ++ (String.join us).toList := by
        simpa using congrArg String.toList h
      obtain ⟨rfl, hjoin⟩ := ht.append_inj hu happend
      rw [ih hts hrest (String.toList_inj.1 hjoin)]

end IsLine

end PL0
