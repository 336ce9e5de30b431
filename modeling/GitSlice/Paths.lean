import Mathlib.Data.List.Infix
import Mathlib.Data.List.DropRight

/-! # Paths
A canonical repository path (`paths.Canonical`) is absolute, clean and has at least an account and a
slice segment. It is modelled by the list of its segments, so that the string tests of the source
are list tests: a path lies at or under another when the latter's segments begin its own. The tree
store splits a path again (`splitPath`), after trimming white space at its end; `Plain` says that
this changes nothing, which canonical paths do not promise. -/

namespace GitSlice

open List

/-- A canonical path as the list of its segments: `/acme/site/a.txt` is `["acme", "site",
"a.txt"]`. -/
abbrev Path := List String

instance : LawfulBEq Path := inferInstance

/-- `unicode.IsSpace`. -/
def isSpace (c : Char) : Bool :=
  c.toNat ∈ [0x09, 0x0a, 0x0b, 0x0c, 0x0d, 0x20, 0x85, 0xa0, 0x1680, 0x2028, 0x2029, 0x202f, 0x205f,
    0x3000] || (0x2000 ≤ c.toNat && c.toNat ≤ 0x200a)

/-- `strings.TrimRightFunc(s, unicode.IsSpace)`. -/
def trimSpaceRight (s : String) : String :=
  String.ofList (s.toList.reverse.dropWhile isSpace).reverse

/-- `strings.TrimSpace`. -/
def trimSpace (s : String) : String :=
  trimSpaceRight (String.ofList (s.toList.dropWhile isSpace))

variable (s : String)

theorem trimSpaceRight_eq :
    trimSpaceRight s = String.ofList (s.toList.rdropWhile isSpace) := rfl

theorem isInfix_trimSpace : (trimSpace s).toList <:+: s.toList := by
  have hend := rdropWhile_prefix isSpace (l := s.toList.dropWhile isSpace)
  rw [trimSpace, trimSpaceRight_eq, String.toList_ofList, String.toList_ofList]
  exact hend.isInfix.trans (dropWhile_suffix _).isInfix

theorem trimSpace_trimSpace : trimSpace (trimSpace s) = trimSpace s := by
  simp only [trimSpace, trimSpaceRight_eq, String.toList_ofList]
  -- what is left begins with no space, so only the end could still be trimmed
  have hstart : (((s.toList.dropWhile isSpace).rdropWhile isSpace).dropWhile isSpace) =
      (s.toList.dropWhile isSpace).rdropWhile isSpace := by
    rw [dropWhile_eq_self_iff]
    intro hlt
    have h := rdropWhile_prefix isSpace (l := s.toList.dropWhile isSpace)
    have hlt' := Nat.lt_of_lt_of_le hlt h.length_le
    rw [h.getElem hlt]
    exact dropWhile_get_zero_not isSpace s.toList hlt'
  rw [hstart, rdropWhile_idempotent]

/-- A segment a canonical path can have. -/
def validSegment (s : String) : Bool :=
  s != "" && s != "." && s != ".." && !s.toList.contains '/'

/-- `paths.Canonical`: an account segment, a slice segment, and only proper segments. -/
def canonical (p : Path) : Bool := decide (2 ≤ p.length) && p.all validSegment

/-- `paths.Contains`: `p` is `base` or lies under it. -/
def contains (base p : Path) : Bool := base.isPrefixOf p

/-- `paths.InAnyPrefix`, and the store's `pathInAnyPrefix`. -/
def inAnyPrefix (bases : List Path) (p : Path) : Bool := bases.any (contains · p)

variable {p : Path}
@[simp] theorem contains_iff {base : Path} : contains base p = true ↔ base <+: p :=
  isPrefixOf_iff_prefix

theorem inAnyPrefix_iff {bases : List Path} :
    inAnyPrefix bases p = true ↔ ∃ base ∈ bases, base <+: p := by
  simp [inAnyPrefix]

/-- `touchesGitslice`: the path is a `.gitslice` folder or inside one. -/
def touchesGitslice (p : Path) : Bool := p.contains ".gitslice"

/-- `treestore.splitPath` of a canonical path. The path is trimmed before it is cleaned, so a last
segment that ends in white space loses it, and one that is then empty, `.` or `..` is cleaned
away. -/
def splitPath (p : Path) : List String :=
  match p.getLast? with
  | none => []
  | some last =>
    let trimmed := trimSpaceRight last
    if trimmed = "" ∨ trimmed = "." then p.dropLast
    else if trimmed = ".." then p.dropLast.dropLast
    else p.dropLast ++ [trimmed]

/-- A segment of the split path is one of the path, or what is left of the last one. -/
theorem mem_splitPath {a : String} (ha : a ∈ splitPath p) :
    a ∈ p ∨ ∃ b ∈ p, a = trimSpaceRight b ∧ a ≠ "" ∧ a ≠ "." ∧ a ≠ ".." := by
  rw [splitPath] at ha
  split at ha
  · cases ha
  · rename_i last hlast
    dsimp only at ha
    split_ifs at ha with hnone hdots
    · exact .inl (mem_of_mem_dropLast ha)
    · exact .inl (mem_of_mem_dropLast (mem_of_mem_dropLast ha))
    · rcases mem_append.mp ha with ha | ha
      · exact .inl (mem_of_mem_dropLast ha)
      · rw [not_or] at hnone
        rw [mem_singleton.mp ha]
        exact .inr ⟨last, mem_of_getLast? hlast, rfl, hnone.1, hnone.2, hdots⟩

theorem subset_trimSpaceRight : (trimSpaceRight s).toList ⊆ s.toList := by
  have hpart := rdropWhile_prefix isSpace (l := s.toList)
  rw [trimSpaceRight_eq, String.toList_ofList]
  exact hpart.subset

theorem validSegment_splitPath (h : ∀ a ∈ p, validSegment a = true) :
    ∀ a ∈ splitPath p, validSegment a = true := by
  intro a ha
  obtain ha | ⟨b, hb, rfl, hempty, hdot, hdots⟩ := mem_splitPath ha
  · exact h a ha
  · have hvalid := h b hb
    simp only [validSegment, Bool.and_eq_true, bne_iff_ne, Bool.not_eq_true', contains_eq_mem,
      decide_eq_false_iff_not] at hvalid ⊢
    exact ⟨⟨⟨hempty, hdot⟩, hdots⟩, fun hslash => hvalid.2 (subset_trimSpaceRight b hslash)⟩

/-- The tree store reads a path above the given one, or one that does not end in white space. -/
theorem splitPath_cases (p : Path) : (splitPath p <+: p ∧ splitPath p ≠ p) ∨
    ∀ a ∈ (splitPath p).getLast?, trimSpaceRight a = a := by
  rw [splitPath]
  split
  · exact .inr fun a ha => nomatch ha
  · rename_i last hlast
    have hlen : p.dropLast.length < p.length := by
      rw [length_dropLast]
      have := length_pos_of_mem (mem_of_getLast? hlast)
      omega
    have hdrop := dropLast_prefix p
    dsimp only
    split_ifs
    · exact .inl ⟨hdrop, fun heq => hlen.ne (congrArg length heq)⟩
    · have hle := dropLast_prefix p.dropLast
      refine .inl ⟨hle.trans hdrop, fun heq => ?_⟩
      exact (hle.length_le.trans_lt hlen).ne (congrArg length heq)
    · refine .inr fun a ha => ?_
      rw [getLast?_concat, Option.mem_some_iff] at ha
      rw [← ha, trimSpaceRight_eq, trimSpaceRight_eq, String.toList_ofList, rdropWhile_idempotent]

/-- The tree store reads the path as it is written. -/
def Plain (p : Path) : Prop := splitPath p = p

instance (p : Path) : Decidable (Plain p) := inferInstanceAs (Decidable (splitPath p = p))

/-- A path whose segments are proper and do not end in white space, so that it and every path above
it are read as they are written. -/
def Tidy (p : Path) : Prop := ∀ a ∈ p, trimSpaceRight a = a ∧ validSegment a = true

instance (p : Path) : Decidable (Tidy p) :=
  inferInstanceAs (Decidable (∀ a ∈ p, trimSpaceRight a = a ∧ validSegment a = true))

variable {q : Path}

theorem Tidy.above (h : Tidy p) (hq : q <+: p) : Tidy q := fun a ha => h a (hq.subset ha)

theorem splitPath_eq_self (h : ∀ a ∈ p.getLast?, trimSpaceRight a = a ∧ validSegment a = true) :
    splitPath p = p := by
  rw [splitPath]
  split
  · rename_i hnone
    exact (List.getLast?_eq_none_iff.mp hnone).symm
  · rename_i last hlast
    obtain ⟨htrim, hvalid⟩ := h last hlast
    simp only [validSegment, Bool.and_eq_true, bne_iff_ne] at hvalid
    obtain ⟨⟨⟨hempty, hdot⟩, hdots⟩, -⟩ := hvalid
    rw [htrim, if_neg (not_or.mpr ⟨hempty, hdot⟩), if_neg hdots]
    exact dropLast_append_getLast? last hlast

theorem Tidy.plain (h : Tidy p) : splitPath p = p :=
  splitPath_eq_self fun a ha => h a (mem_of_getLast? ha)

/-- Two paths **overlap**: one of them is the other or lies under it. -/
def Overlaps (p q : Path) : Prop := p <+: q ∨ q <+: p

instance (p q : Path) : Decidable (Overlaps p q) :=
  inferInstanceAs (Decidable (p <+: q ∨ q <+: p))

theorem Overlaps.symm (h : Overlaps p q) : Overlaps q p := Or.symm h

theorem overlaps_self (p : Path) : Overlaps p p := .inl (prefix_refl p)

variable {r : Path}

theorem Overlaps.of_below (hq : q <+: r) (h : Overlaps p r) : Overlaps p q := by
  rcases h with h | h
  · exact prefix_or_prefix_of_prefix h hq
  · exact .inr (hq.trans h)

@[simp] theorem overlaps_cons_cons {a b : String} :
    Overlaps (a :: p) (b :: q) ↔ a = b ∧ Overlaps p q := by
  simp only [Overlaps, cons_prefix_cons]
  constructor
  · rintro (⟨h, hp⟩ | ⟨h, hp⟩)
    · exact ⟨h, .inl hp⟩
    · exact ⟨h.symm, .inr hp⟩
  · rintro ⟨h, hp | hp⟩
    · exact .inl ⟨h, hp⟩
    · exact .inr ⟨h.symm, hp⟩

@[simp] theorem overlaps_nil_right (p : Path) : Overlaps p [] := .inr nil_prefix

end GitSlice
