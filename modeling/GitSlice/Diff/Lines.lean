import Mathlib.Data.List.Basic
import Mathlib.Tactic.Common

/-! # Lines
`splitLines` of `internal/diffutil/diff.go`: the lines of a file with their newlines, of which the
last may lack one. `splitLines_append` and `splitLines_parts` say when lines stay the same lines
after files are cut and put together: everything but the last part has to end with a newline, and
parts of a file that are not the last do. -/

namespace GitSlice

open List

/-- The content of a file. -/
abbrev Bytes := List UInt8

/-- The bytes of a text. -/
def utf8 (s : String) : Bytes := s.toList.flatMap String.utf8EncodeChar

/-- The byte that ends a line. -/
def newline : UInt8 := 10

/-- `strings.SplitAfter(data, "\n")`. -/
def splitAfter : Bytes → List Bytes
  | [] => [[]]
  | c :: data =>
    if c = newline then [c] :: splitAfter data
    else
      match splitAfter data with
      | [] => [[c]]
      | l :: ls => (c :: l) :: ls

/-- The lines of a text with their newlines. -/
def splitLines (data : Bytes) : List Bytes :=
  if data = [] then []
  else
    let lines := splitAfter data
    if lines.getLast? = some [] then lines.dropLast else lines

/-! ## The lines of a file -/

theorem splitAfter_ne_nil (data : Bytes) : splitAfter data ≠ [] := by
  cases data with
  | nil => exact cons_ne_nil _ _
  | cons c data =>
    rw [splitAfter]
    split_ifs
    · exact cons_ne_nil _ _
    · split <;> exact cons_ne_nil _ _

@[simp] theorem splitLines_nil : splitLines [] = [] := rfl

variable {data : Bytes}

theorem splitLines_of_ne_nil (h : data ≠ []) :
    splitLines data = if (splitAfter data).getLast? = some [] then (splitAfter data).dropLast
      else splitAfter data :=
  if_neg h

theorem splitLines_newline (data : Bytes) :
    splitLines (newline :: data) = [newline] :: splitLines data := by
  by_cases hdata : data = []
  · subst hdata
    rfl
  · obtain ⟨l, ls, hls⟩ := exists_cons_of_ne_nil (splitAfter_ne_nil data)
    rw [splitLines_of_ne_nil (cons_ne_nil _ _), splitLines_of_ne_nil hdata, splitAfter,
      if_pos rfl, hls]
    rw [List.getLast?_cons_cons]
    split_ifs <;> rfl

theorem splitAfter_ne_singleton (h : data ≠ []) : splitAfter data ≠ [[]] := by
  cases data with
  | nil => exact absurd rfl h
  | cons c data =>
    rw [splitAfter]
    split_ifs
    · simp
    · split <;> simp

variable {c : UInt8}

theorem splitLines_cons (hc : c ≠ newline) (data : Bytes) :
    splitLines (c :: data) = match splitLines data with
      | [] => [[c]]
      | l :: ls => (c :: l) :: ls := by
  by_cases hdata : data = []
  · subst hdata
    simp [splitLines, splitAfter, hc]
  · obtain ⟨l, ls, hls⟩ := exists_cons_of_ne_nil (splitAfter_ne_nil data)
    have hsingle := splitAfter_ne_singleton hdata
    rw [splitLines_of_ne_nil (cons_ne_nil _ _), splitLines_of_ne_nil hdata, splitAfter,
      if_neg hc, hls]
    rw [hls] at hsingle
    cases ls with
    | nil =>
      have hl : l ≠ [] := fun hl => hsingle (by rw [hl])
      simp [hl]
    | cons l' ls =>
      simp only [List.getLast?_cons_cons]
      split_ifs <;> rfl

theorem flatten_splitLines (data : Bytes) : (splitLines data).flatten = data := by
  induction data with
  | nil => rfl
  | cons c data ih =>
    by_cases hc : c = newline
    · subst hc
      rw [splitLines_newline, flatten_cons, ih]
      rfl
    · rw [splitLines_cons hc]
      split
      next h =>
        rw [h] at ih
        simp [← ih]
      next l ls h =>
        rw [h, flatten_cons] at ih
        rw [flatten_cons, cons_append, ih]

theorem splitLines_eq_nil : splitLines data = [] ↔ data = [] := by
  constructor
  · intro h
    rw [← flatten_splitLines data, h]
    rfl
  · rintro rfl
    rfl

/-! ## Cutting and joining -/

/-- Nothing, or bytes that end with a newline. -/
def Ended (data : Bytes) : Prop := data = [] ∨ data.getLast? = some newline

theorem Ended.cons (h : Ended data) (hdata : data = [] → c = newline) : Ended (c :: data) := by
  refine .inr ?_
  rcases h with rfl | h
  · rw [hdata rfl]
    rfl
  · cases data with
    | nil => cases h
    | cons c' data => rwa [List.getLast?_cons_cons]

theorem splitLines_append (h : Ended data) (data' : Bytes) :
    splitLines (data ++ data') = splitLines data ++ splitLines data' := by
  induction data with
  | nil => rfl
  | cons c data ih =>
    by_cases hc : c = newline
    · subst hc
      have hrest : Ended data := by
        by_cases hdata : data = []
        · exact .inl hdata
        · obtain ⟨c', data, rfl⟩ := exists_cons_of_ne_nil hdata
          exact h.imp nofun fun h => by rwa [List.getLast?_cons_cons] at h
      rw [cons_append, splitLines_newline, splitLines_newline, ih hrest]
      rfl
    · -- the line goes on, to a newline
      have hdata : data ≠ [] := by
        rintro rfl
        rcases h with h | h
        · cases h
        · exact hc (Option.some.inj h)
      obtain ⟨c', data, rfl⟩ := exists_cons_of_ne_nil hdata
      have hrest : Ended (c' :: data) := h.imp nofun fun h => by rwa [List.getLast?_cons_cons] at h
      rw [cons_append, splitLines_cons hc, splitLines_cons hc, ih hrest]
      cases hlines : splitLines (c' :: data) with
      | nil => exact absurd (splitLines_eq_nil.mp hlines) (cons_ne_nil _ _)
      | cons l ls => rfl

/-- **The parts of a file's lines** are lines themselves, and all but the last end with a
newline. -/
theorem splitLines_parts (front : List Bytes) {back : List Bytes}
    (h : splitLines data = front ++ back) :
    splitLines front.flatten = front ∧ splitLines back.flatten = back ∧
      (back ≠ [] → Ended front.flatten) := by
  induction data generalizing front with
  | nil =>
    obtain ⟨rfl, rfl⟩ := append_eq_nil_iff.mp h.symm
    exact ⟨rfl, rfl, fun _ => .inl rfl⟩
  | cons c data ih =>
    cases front with
    | nil =>
      rw [nil_append] at h
      exact ⟨rfl, by rw [← h, flatten_splitLines], fun _ => .inl rfl⟩
    | cons l front =>
      by_cases hc : c = newline
      · subst hc
        rw [splitLines_newline, cons_append, List.cons.injEq] at h
        obtain ⟨rfl, h⟩ := h
        obtain ⟨hfront, hback, hended⟩ := ih front h
        refine ⟨?_, hback, fun hne => (hended hne).cons fun _ => rfl⟩
        rw [flatten_cons, singleton_append, splitLines_newline, hfront]
      · rw [splitLines_cons hc] at h
        cases hlines : splitLines data with
        | nil =>
          rw [hlines, cons_append, List.cons.injEq] at h
          obtain ⟨rfl, h⟩ := h
          obtain ⟨rfl, rfl⟩ := append_eq_nil_iff.mp h.symm
          refine ⟨?_, rfl, absurd rfl⟩
          show splitLines (c :: []) = _
          rw [splitLines_cons hc]
          rfl
        | cons l' ls =>
          rw [hlines] at h
          obtain ⟨rfl, rfl⟩ := h
          obtain ⟨hfront, hback, hended⟩ := ih (l' :: front) hlines
          have hne : (l' :: front).flatten ≠ [] := fun hnil => by
            rw [hnil] at hfront
            cases hfront
          refine ⟨?_, hback, fun hback => (hended hback).cons fun hnil => absurd hnil hne⟩
          show splitLines (c :: (l' :: front).flatten) = _
          rw [splitLines_cons hc, hfront]

end GitSlice
