import Mathlib.Data.List.Infix

/-! # Parts of lists
Where a part of a list lies when the list is made of others: `infix_append_cons` for two lists with
an element between them, and `infix_of_infix_terminated` for lists that each end with a
terminator. -/

namespace GitSlice

open List

namespace Infix

variable {α : Type*} {v l r : List α} {c : α}

theorem infix_append_cons (h : v <:+: l ++ c :: r) (hc : c ∉ v) : v <:+: l ∨ v <:+: r := by
  rcases infix_append_iff_ne_nil.mp h with h | h | ⟨x, y, -, hy, rfl, -, hpre⟩
  · exact .inl h
  · rcases infix_cons_iff.mp h with h | h
    · cases v with
      | nil => exact .inl nil_infix
      | cons b v =>
        obtain ⟨rfl, -⟩ := cons_prefix_cons.mp h
        exact absurd mem_cons_self hc
    · exact .inr h
  · -- it would reach over the element
    obtain ⟨b, y, rfl⟩ := exists_cons_of_ne_nil hy
    obtain ⟨rfl, -⟩ := cons_prefix_cons.mp hpre
    exact absurd (mem_append_right x mem_cons_self) hc

theorem infix_of_infix_concat (h : v <:+: l ++ [c]) (hc : c ∉ v) : v <:+: l := by
  rcases infix_append_cons h hc with h | h
  · exact h
  · rw [infix_nil.mp h]
    exact nil_infix

theorem infix_of_infix_terminated {parts : List (List α)} (hv : v ≠ []) (hc : c ∉ v)
    (h : v <:+: (parts.map (· ++ [c])).flatten) : ∃ part ∈ parts, v <:+: part := by
  induction parts with
  | nil => exact absurd (infix_nil.mp h) hv
  | cons part parts ih =>
    rw [map_cons, flatten_cons, append_assoc] at h
    rcases infix_append_cons h hc with h | h
    · exact ⟨part, mem_cons_self, h⟩
    · obtain ⟨part', hmem, hpart'⟩ := ih h
      exact ⟨part', mem_cons_of_mem part hmem, hpart'⟩

theorem infix_of_mem_intercalate {sep : List α} {parts : List (List α)} {part : List α}
    (h : part ∈ parts) :
    part <:+: sep.intercalate parts := by
  induction parts with
  | nil => cases h
  | cons a parts ih =>
    cases parts with
    | nil =>
      rw [mem_singleton.mp h]
      exact ⟨[], [], by simp [List.intercalate]⟩
    | cons b parts =>
      rcases mem_cons.mp h with rfl | h
      · exact (prefix_append _ _).isInfix
      · exact (ih h).trans ((suffix_append _ _).trans (suffix_append _ _)).isInfix

theorem infix_of_mem_splitOn [DecidableEq α] (h : v ∈ l.splitOn c) : v <:+: l := by
  have hjoin := @infix_of_mem_intercalate α [c] (l.splitOn c) v h
  rwa [intercalate_splitOn] at hjoin

theorem notMem_of_mem_splitOn [DecidableEq α] (h : v ∈ l.splitOn c) : c ∉ v := by
  induction l generalizing v with
  | nil => simp_all
  | cons a l ih =>
    rw [splitOn_cons_eq_if_modifyHead] at h
    split_ifs at h with ha
    · rcases mem_cons.mp h with rfl | h
      · simp
      · exact ih h
    · obtain ⟨v', rest, hsplit⟩ := exists_cons_of_ne_nil (splitOn_ne_nil c l)
      rw [hsplit] at h ih
      rcases mem_cons.mp h with rfl | h
      · rw [mem_cons, not_or]
        exact ⟨fun hac => ha (by simp [hac]), ih mem_cons_self⟩
      · exact ih (mem_cons_of_mem v' h)

end Infix

end GitSlice
