import Mathlib.Data.List.Basic

/-! # Rows

A text that is written row by row: every row ends in a line feed, and no row has one inside. Such a
text has one list of rows only. -/
set_option autoImplicit false
namespace MiniPascal

/-- The text is made of the rows, each with a line feed behind it. -/
structure Rows (text : String) (rows : List (List Char)) : Prop where
  text : text.toList = rows.flatMap (· ++ ['\n'])
  single : ∀ row ∈ rows, '\n' ∉ row

namespace Rows

variable {text first second : String} {rows others : List (List Char)} {row other : List Char}

theorem append (before : Rows first rows) (behind : Rows second others) :
    Rows (first ++ second) (rows ++ others) := by
  refine ⟨?_, List.forall_mem_append.mpr ⟨before.single, behind.single⟩⟩
  rw [String.toList_append, before.text, behind.text, List.flatMap_append]

/-- Texts of one row each. -/
theorem join_map {α : Type} {values : List α} {line : α → String} {row : α → List Char}
    (ends : ∀ value ∈ values, (line value).toList = row value ++ ['\n'])
    (single : ∀ value ∈ values, '\n' ∉ row value) :
    Rows (String.join (values.map line)) (values.map row) := by
  refine ⟨?_, List.forall_mem_map.mpr single⟩
  rw [String.toList_join, List.flatMap_map, List.flatMap_map]
  exact List.flatMap_congr ends

theorem cons_inj {rest further : List Char} (one : '\n' ∉ row) (two : '\n' ∉ other)
    (same : row ++ '\n' :: rest = other ++ '\n' :: further) : row = other ∧ rest = further := by
  induction row generalizing other with
  | nil =>
      cases other with
      | nil => exact ⟨rfl, (List.cons.inj same).2⟩
      | cons c other => exact absurd ((List.cons.inj same).1 ▸ List.mem_cons_self) two
  | cons c row ih =>
      cases other with
      | nil => exact absurd ((List.cons.inj same).1 ▸ List.mem_cons_self) one
      | cons d other =>
          rw [List.cons_append, List.cons_append] at same
          obtain ⟨rfl, tail⟩ := List.cons.inj same
          obtain ⟨rfl, rest⟩ := ih (List.not_mem_of_not_mem_cons one)
            (List.not_mem_of_not_mem_cons two) tail
          exact ⟨rfl, rest⟩

theorem unique (one : Rows text rows) (two : Rows text others) : rows = others := by
  have same := one.text.symm.trans two.text
  have first := one.single
  have second := two.single
  clear one two
  induction rows generalizing others with
  | nil =>
      cases others with
      | nil => rfl
      | cons row others => simp at same
  | cons row rows ih =>
      cases others with
      | nil => simp at same
      | cons other others =>
          simp only [List.flatMap_cons, List.append_assoc, List.singleton_append] at same
          obtain ⟨head, rows'⟩ := List.forall_mem_cons.mp first
          obtain ⟨head', others'⟩ := List.forall_mem_cons.mp second
          obtain ⟨rfl, rest⟩ := cons_inj head head' same
          rw [ih rest rows' others']

end Rows
end MiniPascal
