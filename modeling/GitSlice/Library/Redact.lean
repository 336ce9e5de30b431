import Mathlib.Data.List.Infix

/-! # Redaction
A scan that goes over a list from left to right and replaces what it finds of some values by a mark.
At each place it takes the first value of the list of values that begins there, and goes on behind
it.

The scan is cut into pieces, the elements it keeps and the values it takes out. `not_infix_redact`
says that no value shows in the result, also when the list was scanned in parts and no value was cut
by them, and `hidden_of_occurrence` that no element of an occurrence is kept, when the values are
given longest first and no occurrence reaches from inside another one to behind it. -/

namespace GitSlice

open List

namespace Redact

variable {α : Type*}

/-- A piece of a list that was scanned. -/
inductive Piece (α : Type*) where
  /-- An element that is kept. -/
  | kept (a : α)
  /-- A value that is taken out. -/
  | hidden (value : List α)

namespace Piece

/-- What the piece was in the list. -/
def raw : Piece α → List α
  | kept a => [a]
  | hidden v => v

/-- What the piece is in the result. -/
def shown (mark : List α) : Piece α → List α
  | kept a => [a]
  | hidden _ => mark

/-- For each element of the piece, whether it is kept. -/
def cover : Piece α → List Bool
  | kept _ => [true]
  | hidden v => v.map fun _ => false

end Piece

variable [DecidableEq α] (values : List (List α)) (mark : List α)

/-- The scan, which still has to pass some elements of the last value it found. -/
def scan : Nat → List α → List (Piece α)
  | _, [] => []
  | skip + 1, _ :: rest => scan skip rest
  | 0, a :: rest =>
    match values.find? fun v => v.isPrefixOf (a :: rest) with
    | some v => .hidden v :: scan (v.length - 1) rest
    | none => .kept a :: scan 0 rest

/-- The pieces of a list. -/
def pieces (text : List α) : List (Piece α) := scan values 0 text

/-- The list with a mark in the place of every value found. -/
def redact (text : List α) : List α := (pieces values text).flatMap (Piece.shown mark)

/-- For each element of the list, whether it is kept. -/
def keeps (text : List α) : List Bool := (pieces values text).flatMap Piece.cover

variable {values mark}

theorem scan_eq (skip : Nat) (text : List α) :
    scan values skip text = pieces values (text.drop skip) := by
  induction text generalizing skip with
  | nil => cases skip <;> simp [scan, pieces]
  | cons a rest ih =>
    cases skip with
    | zero => rfl
    | succ skip => simpa [scan] using ih skip

@[simp] theorem pieces_nil : pieces values ([] : List α) = [] := rfl

variable {text : List α} {v : List α}

section

variable (hne : ∀ v ∈ values, v ≠ [])
include hne

/-- One step of the scan: it keeps an element at which no value begins, or takes out the first value
that begins there. -/
theorem pieces_cons (a : α) (rest : List α) :
    (pieces values (a :: rest) = .kept a :: pieces values rest ∧ ∀ v ∈ values, ¬ v <+: a :: rest) ∨
      ∃ v t, values.find? (fun v => v.isPrefixOf (a :: rest)) = some v ∧ a :: rest = v ++ t ∧
        pieces values (a :: rest) = .hidden v :: pieces values t := by
  cases hfind : values.find? fun v => v.isPrefixOf (a :: rest) with
  | none =>
    refine .inl ⟨by simp [pieces, scan, hfind], fun v hv hle => ?_⟩
    have := List.find?_eq_none.mp hfind v hv
    exact this <| isPrefixOf_iff_prefix.mpr hle
  | some v =>
    have hmem := mem_of_find?_eq_some hfind
    have hpre := List.find?_some hfind
    obtain ⟨t, ht⟩ := isPrefixOf_iff_prefix.mp hpre
    refine .inr ⟨v, t, rfl, ht.symm, ?_⟩
    -- behind the value the scan starts anew
    obtain ⟨b, v, rfl⟩ := exists_cons_of_ne_nil (hne v hmem)
    have hrest : rest = v ++ t := (cons_eq_cons.mp ht).2.symm
    have hscan : pieces values (a :: rest) = .hidden (b :: v) :: scan values v.length rest := by
      simp [pieces, scan, hfind]
    rw [hscan, scan_eq, hrest, drop_left]

theorem raw_pieces (text : List α) : (pieces values text).flatMap Piece.raw = text := by
  induction hlen : text.length using Nat.strong_induction_on generalizing text with
  | _ n ih =>
    cases text with
    | nil => rfl
    | cons a rest =>
      rcases pieces_cons hne a rest with ⟨hp, -⟩ | ⟨v, t, hfind, ht, hp⟩
      · rw [hp, flatMap_cons, ih rest.length (by simp [← hlen]) rest rfl]
        rfl
      · have hv := hne v (mem_of_find?_eq_some hfind)
        have hlt : t.length < n := by
          have := congrArg List.length ht
          have := length_pos_of_ne_nil hv
          simp at *
          omega
        rw [hp, flatMap_cons, ih t.length hlt t rfl]
        exact ht.symm

theorem redact_eq_nil (hmark : mark ≠ []) : redact values mark text = [] ↔ text = [] := by
  constructor
  · intro h
    cases text with
    | nil => rfl
    | cons a rest =>
      rcases pieces_cons hne a rest with ⟨hp, -⟩ | ⟨v, t, -, -, hp⟩
      · simp [redact, hp, Piece.shown] at h
      · simp [redact, hp, Piece.shown, hmark] at h
  · rintro rfl
    rfl

theorem not_kept (hv : v ∈ values) (text : List α)
    {l r : List (Piece α)} : pieces values text ≠ l ++ (v.map Piece.kept ++ r) := by
  intro h
  induction l generalizing text with
  | nil =>
    have htext := raw_pieces hne text
    obtain ⟨b, v, rfl⟩ := exists_cons_of_ne_nil (hne v hv)
    cases text with
    | nil => simp at h
    | cons a rest =>
      rcases pieces_cons hne a rest with ⟨-, hnone⟩ | ⟨w, t, -, -, hp⟩
      · -- the value would begin at the element, but none does
        refine hnone _ hv ⟨r.flatMap Piece.raw, ?_⟩
        rw [← htext, h]
        simp [Piece.raw, flatMap_map]
      · rw [hp] at h
        simp at h
  | cons p l ih =>
    cases text with
    | nil => simp at h
    | cons a rest =>
      rcases pieces_cons hne a rest with ⟨hp, -⟩ | ⟨w, t, -, -, hp⟩
      · rw [hp] at h
        exact ih rest (cons_eq_cons.mp h).2
      · rw [hp] at h
        exact ih t (cons_eq_cons.mp h).2

end

/-! ## What shows -/

omit [DecidableEq α] in
theorem kept_of_prefix (hmark : mark ≠ []) (hfree : ∀ a ∈ v, a ∉ mark) {ps : List (Piece α)}
    (h : v <+: ps.flatMap (Piece.shown mark)) : ∃ r, ps = v.map Piece.kept ++ r := by
  induction v generalizing ps with
  | nil => exact ⟨ps, rfl⟩
  | cons b v ih =>
    rw [forall_mem_cons] at hfree
    cases ps with
    | nil => simp at h
    | cons p ps =>
      cases p with
      | kept =>
        obtain ⟨rfl, hrest⟩ := cons_prefix_cons.mp h
        obtain ⟨r, rfl⟩ := ih hfree.2 hrest
        exact ⟨r, rfl⟩
      | hidden =>
        -- the value would begin with an element of the mark
        obtain ⟨m, mark, rfl⟩ := exists_cons_of_ne_nil hmark
        obtain ⟨rfl, -⟩ := cons_prefix_cons.mp h
        exact absurd mem_cons_self hfree.1

omit [DecidableEq α] in
/-- What shows and has no element of the mark in it was kept in one piece. -/
theorem kept_of_infix (hmark : mark ≠ []) (hv : v ≠ []) (hfree : ∀ a ∈ v, a ∉ mark)
    {ps : List (Piece α)} (h : v <:+: ps.flatMap (Piece.shown mark)) :
    ∃ l r, ps = l ++ (v.map Piece.kept ++ r) := by
  induction ps with
  | nil =>
    rw [flatMap_nil, infix_nil] at h
    exact absurd h hv
  | cons p ps ih =>
    by_cases hpre : v <+: (p :: ps).flatMap (Piece.shown mark)
    · obtain ⟨r, hr⟩ := kept_of_prefix hmark hfree hpre
      exact ⟨[], r, hr⟩
    · have hlater : v <:+: ps.flatMap (Piece.shown mark) := by
        have hskip : ∀ m : List α, (∀ a ∈ m, a ∈ mark) →
            v <:+: m ++ ps.flatMap (Piece.shown mark) → v <:+: ps.flatMap (Piece.shown mark) := by
          intro m
          induction m with
          | nil => exact fun _ h => h
          | cons a m ihm =>
            intro hm h
            rw [forall_mem_cons] at hm
            rcases infix_cons_iff.mp h with h | h
            · obtain ⟨b, v, rfl⟩ := exists_cons_of_ne_nil hv
              obtain ⟨rfl, -⟩ := cons_prefix_cons.mp h
              exact absurd hm.1 (hfree _ mem_cons_self)
            · exact ihm hm.2 h
        cases p with
        | kept =>
          rcases infix_cons_iff.mp h with h | h
          · exact absurd h hpre
          · exact h
        | hidden => exact hskip mark (fun _ h => h) h
      obtain ⟨l, r, rfl⟩ := ih hlater
      exact ⟨p :: l, r, rfl⟩

/-- A value is **cut** by the parts of a list: it begins in one of them and ends in a later one. -/
def Cut (v : List α) (parts : List (List α)) : Prop :=
  ∃ ps qs x y, parts = ps ++ qs ∧ v = x ++ y ∧ x ≠ [] ∧ y ≠ [] ∧ x <:+ ps.flatten ∧ y <+: qs.flatten

variable {parts : List (List α)}

omit [DecidableEq α] in
theorem Cut.cons (h : Cut v parts) (part : List α) : Cut v (part :: parts) := by
  obtain ⟨ps, qs, x, y, rfl, hv, hx, hy, hxs, hys⟩ := h
  refine ⟨part :: ps, qs, x, y, rfl, hv, hx, hy, ?_, hys⟩
  exact hxs.trans (suffix_append _ _)

/-- What is kept in one piece over several parts is kept in one of them, or was cut by them. -/
theorem kept_in_part (hne : ∀ v ∈ values, v ≠ []) (hv : v ≠ []) {l r : List (Piece α)}
    (h : parts.flatMap (pieces values) = l ++ (v.map Piece.kept ++ r)) :
    (∃ part ∈ parts, ∃ l r, pieces values part = l ++ (v.map Piece.kept ++ r)) ∨ Cut v parts := by
  induction parts generalizing l with
  | nil =>
    have := congrArg List.length h
    have := length_pos_of_ne_nil hv
    simp at *
    omega
  | cons part parts ih =>
    have hlater : ∀ {l}, parts.flatMap (pieces values) = l ++ (v.map Piece.kept ++ r) →
        (∃ q ∈ part :: parts, ∃ l r, pieces values q = l ++ (v.map Piece.kept ++ r)) ∨
          Cut v (part :: parts) := by
      intro l hl
      rcases ih hl with ⟨q, hq, hkept⟩ | hcut
      · exact .inl ⟨q, mem_cons_of_mem part hq, hkept⟩
      · exact .inr (hcut.cons part)
    rw [flatMap_cons] at h
    rcases append_eq_append_iff.mp h with ⟨l', rfl, hl'⟩ | ⟨m, hm, hrest⟩
    · exact hlater hl'
    · -- the value begins in this part
      rcases append_eq_append_iff.mp hrest with ⟨m', rfl, -⟩ | ⟨m', hm', hparts⟩
      · exact .inl ⟨part, mem_cons_self, l, m', hm⟩
      · obtain ⟨x, y, rfl, rfl, rfl⟩ := map_eq_append_iff.mp hm'
        by_cases hx : x = []
        · subst hx
          exact hlater (l := []) hparts
        · by_cases hy : y = []
          · subst hy
            refine .inl ⟨part, mem_cons_self, l, [], ?_⟩
            simpa using hm
          · refine .inr ⟨[part], parts, x, y, rfl, rfl, hx, hy, ?_, ?_⟩
            · refine ⟨l.flatMap Piece.raw, ?_⟩
              rw [← raw_pieces hne part, hm]
              simp [Piece.raw, flatMap_map]
            · refine ⟨r.flatMap Piece.raw, ?_⟩
              have hall : (parts.flatMap (pieces values)).flatMap Piece.raw = parts.flatten := by
                rw [flatMap_assoc]
                simp only [raw_pieces hne]
                simp
              rw [← hall, hparts]
              simp [Piece.raw, flatMap_map]

/-- **No value shows** in the redacted parts, when it has no element of the mark in it and the parts
do not cut it. -/
theorem not_infix_redact (hne : ∀ v ∈ values, v ≠ []) (hmark : mark ≠ []) (hv : v ∈ values)
    (hfree : ∀ a ∈ v, a ∉ mark) (hcut : ¬ Cut v parts) :
    ¬ v <:+: parts.flatMap (redact values mark) := by
  intro h
  have hpieces : parts.flatMap (redact values mark) =
      (parts.flatMap (pieces values)).flatMap (Piece.shown mark) := by
    rw [flatMap_assoc]
    rfl
  rw [hpieces] at h
  obtain ⟨l, r, hlr⟩ := kept_of_infix hmark (hne v hv) hfree h
  rcases kept_in_part hne (hne v hv) hlr with ⟨part, -, l, r, hpart⟩ | hcut'
  · exact not_kept hne hv part hpart
  · exact hcut hcut'

omit [DecidableEq α] in
theorem not_cut_single (v text : List α) : ¬ Cut v [text] := by
  rintro ⟨ps, qs, x, y, hparts, -, hx, hy, hxs, hys⟩
  rcases append_eq_singleton_iff.mp hparts.symm with ⟨rfl, -⟩ | ⟨-, rfl⟩
  · exact hx (suffix_nil.mp hxs)
  · exact hy (prefix_nil.mp hys)

/-! ## What is kept -/

variable (values) in
/-- Some value begins inside an occurrence of another one and ends behind it. -/
def Straddled (text : List α) : Prop :=
  ∃ l x y z r, text = l ++ x ++ y ++ z ++ r ∧ x ≠ [] ∧ y ≠ [] ∧ z ≠ [] ∧ x ++ y ∈ values ∧
    y ++ z ∈ values

omit [DecidableEq α] in
theorem Straddled.of_append {pre : List α} (h : Straddled values text) :
    Straddled values (pre ++ text) := by
  obtain ⟨l, x, y, z, r, rfl, hx, hy, hz, hv, hw⟩ := h
  exact ⟨pre ++ l, x, y, z, r, by simp, hx, hy, hz, hv, hw⟩

omit [DecidableEq α] in
/-- A value does not straddle itself when no other part of it both begins and ends it. -/
theorem not_straddled_single (hborder : ∀ y, y <:+ v → y <+: v → y = [] ∨ y = v) (text : List α) :
    ¬ Straddled [v] text := by
  rintro ⟨l, x, y, z, r, -, hx, hy, -, hxy, hyz⟩
  rw [mem_singleton] at hxy hyz
  rcases hborder y ⟨x, hxy⟩ ⟨z, hyz⟩ with rfl | rfl
  · exact hy rfl
  · exact hx (by simpa using hxy)

variable (values) in
/-- No value stands before one that it begins. -/
def LongestFirst : Prop := values.Pairwise fun v w => v <+: w → v = w

theorem length_le_of_find {w : List α} (hsorted : LongestFirst values) (hv : v ∈ values)
    (hpre : v <+: text)
    (hw : values.find? (fun v => v.isPrefixOf text) = some w) : v.length ≤ w.length := by
  obtain ⟨hwpre, before, behind, rfl, hbefore⟩ := find?_eq_some_iff_append.mp hw
  obtain ⟨-, hbehind, -⟩ := pairwise_append.mp hsorted
  rcases mem_append.mp hv with hv | hv
  · have hnot := hbefore v hv
    rw [Bool.not_eq_true', ← Bool.not_eq_true, isPrefixOf_iff_prefix] at hnot
    exact absurd hpre hnot
  · rcases mem_cons.mp hv with rfl | hv
    · exact le_rfl
    · rcases prefix_or_prefix_of_prefix hpre <| isPrefixOf_iff_prefix.mp hwpre with h | h
      · exact h.length_le
      · rw [(pairwise_cons.mp hbehind).1 v hv h]

omit [DecidableEq α] in
theorem cover_hidden (w : List α) (rest : List Bool) {i : Nat} (hi : i < w.length) :
    ((Piece.hidden w).cover ++ rest)[i]? = some false := by
  rw [Piece.cover, List.getElem?_append_left (by simpa using hi), List.getElem?_map,
    List.getElem?_eq_getElem hi]
  rfl

/-- **No element of an occurrence is kept**, when the values stand longest first and none straddles
another one. -/
theorem hidden_of_occurrence (hne : ∀ v ∈ values, v ≠ []) (hsorted : LongestFirst values)
    (hv : v ∈ values) {l r : List α} (hstraddled : ¬ Straddled values (l ++ v ++ r)) {k : Nat}
    (hk : k < v.length) : (keeps values (l ++ v ++ r))[l.length + k]? = some false := by
  induction hlen : l.length using Nat.strong_induction_on generalizing l with
  | _ n ih =>
    subst hlen
    cases l with
    | nil =>
      obtain ⟨b, v', hbv⟩ := exists_cons_of_ne_nil (hne v hv)
      have htext : [] ++ v ++ r = b :: (v' ++ r) := by rw [hbv]; rfl
      have hpre : v <+: b :: (v' ++ r) := ⟨r, by rw [hbv]; rfl⟩
      rcases pieces_cons hne b (v' ++ r) with ⟨-, hnone⟩ | ⟨w, t, hfind, -, hp⟩
      · exact absurd hpre (hnone v hv)
      · have hle := length_le_of_find hsorted hv hpre hfind
        rw [keeps, htext, hp, flatMap_cons, cover_hidden]
        exact Nat.lt_of_lt_of_le (by simpa using hk) hle
    | cons a l =>
      have htail : ∀ (pre : List α) {l' : List α}, a :: l = pre ++ l' →
          ¬ Straddled values (l' ++ v ++ r) := by
        intro pre l' heq hs
        refine hstraddled ?_
        rw [heq, append_assoc, append_assoc, ← append_assoc l']
        exact hs.of_append
      rcases pieces_cons hne a (l ++ v ++ r) with ⟨hp, -⟩ | ⟨w, t, hfind, ht, hp⟩
      · have hrest := ih l.length (by simp) (htail [a] rfl) rfl
        rw [cons_append, cons_append, keeps, hp]
        show (true :: keeps values (l ++ v ++ r))[l.length + 1 + k]? = some false
        rw [show l.length + 1 + k = l.length + k + 1 by omega]
        exact hrest
      · have hw := mem_of_find?_eq_some hfind
        have hwpre : w <+: (a :: l) ++ (v ++ r) := ⟨t, by rw [← ht]; simp⟩
        have hlpre : (a :: l) <+: (a :: l) ++ (v ++ r) := prefix_append _ _
        rw [cons_append, cons_append, keeps, hp, flatMap_cons]
        by_cases hbefore : w.length ≤ (a :: l).length
        · -- the value found ends before the occurrence
          obtain ⟨l', hl'⟩ := prefix_of_prefix_length_le hwpre hlpre hbefore
          have ht' : t = l' ++ v ++ r := by
            have heq : w ++ (l' ++ v ++ r) = w ++ t := by
              rw [← ht, ← append_assoc, ← append_assoc, hl']
              rfl
            exact (append_cancel_left heq).symm
          have hlength : (a :: l).length = w.length + l'.length := by rw [← hl', length_append]
          have hpos := length_pos_of_ne_nil (hne w hw)
          have hrest := ih l'.length (by omega) (htail w hl'.symm) rfl
          have hcover : (Piece.hidden w : Piece α).cover.length = w.length := by simp [Piece.cover]
          rw [List.getElem?_append_right (by omega), hcover, hlength,
            show w.length + l'.length + k - w.length = l'.length + k by omega, ht']
          exact hrest
        · obtain ⟨y, hy⟩ := prefix_of_prefix_length_le hlpre hwpre (by omega)
          by_cases hin : (a :: l).length + k < w.length
          · exact cover_hidden w _ hin
          · -- it ends inside the occurrence
            exfalso
            have hlength : w.length = (a :: l).length + y.length := by rw [← hy, length_append]
            have hyt : y ++ t = v ++ r := by
              have heq : (a :: l) ++ (y ++ t) = (a :: l) ++ (v ++ r) := by
                rw [← append_assoc, hy, ← ht]
                simp
              exact append_cancel_left heq
            have hypre : y <+: v := prefix_of_prefix_length_le ⟨t, hyt⟩ ⟨r, rfl⟩ (by omega)
            obtain ⟨z, hz⟩ := hypre
            have hzlength : v.length = y.length + z.length := by rw [← hz, length_append]
            refine hstraddled ⟨[], a :: l, y, z, r, by rw [← hz]; simp, cons_ne_nil a l, ?_, ?_,
              by rwa [hy], by rwa [hz]⟩
            · rintro rfl
              rw [length_nil] at hlength
              omega
            · rintro rfl
              rw [length_nil] at hzlength
              omega

end Redact

end GitSlice
