import GitSlice.Library.Infix
import GitSlice.Library.Lists
import GitSlice.Library.Redact
import GitSlice.Paths
import Mathlib.Data.List.Dedup
import Mathlib.Data.String.Basic

/-! # Masking secrets
`internal/secretmask`: a masker is made from secret values and replaces them, and their lines when
they have several, in a text. `strings.Replacer` scans the text once from left to right; a value is
looked for in the order the masker lists its values, which is longest first. -/

namespace GitSlice

open List

namespace SecretMask

/-- What stands for a secret. -/
def replacement : String := "***"

/-- Shorter values are not masked. -/
def minLength : Nat := 4

/-- `strings.TrimRight(value, "\\r")`. -/
def trimReturns (value : String) : String := String.ofList (value.toList.rdropWhile (· = '\r'))

/-- The values that are masked for a value: its own and those of its lines. -/
def candidates (value : String) : List String :=
  value :: if '\n' ∈ value.toList then (value.toList.splitOn '\n').map String.ofList else []

/-- The test of `New`: the value is long enough to be masked. -/
def isCovered (value : String) : Bool :=
  decide (minLength ≤ (trimSpace (trimReturns value)).utf8ByteSize)

/-- The order of the values in a masker: the longest first. -/
def precedes (v w : String) : Prop :=
  w.utf8ByteSize < v.utf8ByteSize ∨ (w.utf8ByteSize = v.utf8ByteSize ∧ v ≤ w)

instance : DecidableRel precedes := fun v w =>
  inferInstanceAs (Decidable (w.utf8ByteSize < v.utf8ByteSize ∨ (w.utf8ByteSize = v.utf8ByteSize ∧ v ≤ w)))

/-- A masker: its values in the order they are looked for. `New` makes no masker where there are
none, and no masker masks nothing. -/
abbrev Masker := List String

/-- `New`: the values to be masked. -/
def new (values : List String) : Masker :=
  (((values.flatMap candidates).filter isCovered).map trimReturns).dedup.insertionSort precedes

/-- `Mask`. -/
def Masker.mask (m : Masker) (text : String) : String :=
  String.ofList (Redact.redact (m.map String.toList) replacement.toList text.toList)

/-! ## The values of a masker -/

variable {values : List String} {h : String}

theorem mem_new :
    h ∈ new values ↔ ∃ v ∈ values, ∃ c ∈ candidates v, isCovered c = true ∧ trimReturns c = h := by
  rw [new, (perm_insertionSort _ _).mem_iff, mem_dedup, mem_map]
  simp only [mem_filter, mem_flatMap]
  constructor
  · rintro ⟨c, ⟨⟨v, hv, hc⟩, hlong⟩, rfl⟩
    exact ⟨v, hv, c, hc, hlong, rfl⟩
  · rintro ⟨v, hv, c, hc, hlong, rfl⟩
    exact ⟨c, ⟨⟨v, hv, hc⟩, hlong⟩, rfl⟩

variable {v : String}

theorem infix_of_mem_candidates {c : String} (h : c ∈ candidates v) : c.toList <:+: v.toList := by
  rcases mem_cons.mp h with rfl | h
  · exact infix_rfl
  · split_ifs at h
    · obtain ⟨line, hline, rfl⟩ := mem_map.mp h
      rw [String.toList_ofList]
      exact Infix.infix_of_mem_splitOn hline
    · cases h

theorem trimReturns_prefix (v : String) : (trimReturns v).toList <+: v.toList := by
  rw [trimReturns, String.toList_ofList]
  exact rdropWhile_prefix _ _

/-- A value that is long enough is masked without the returns at its end. -/
theorem trimReturns_mem_new (hv : v ∈ values) (hcovered : isCovered v = true) :
    trimReturns v ∈ new values :=
  mem_new.mpr ⟨v, hv, v, mem_cons_self, hcovered, rfl⟩

theorem ne_empty_of_mem_new (hh : h ∈ new values) : h.toList ≠ [] := by
  obtain ⟨-, -, c, -, hcovered, rfl⟩ := mem_new.mp hh
  intro hnil
  have hempty : trimReturns c = "" := String.toList_inj.mp hnil
  rw [isCovered, hempty] at hcovered
  revert hcovered
  decide

theorem values_ne_nil (values : List String) : ∀ v ∈ (new values).map String.toList, v ≠ [] := by
  intro v hv
  obtain ⟨h, hh, rfl⟩ := mem_map.mp hv
  exact ne_empty_of_mem_new hh

theorem longestFirst_new (values : List String) :
    Redact.LongestFirst ((new values).map String.toList) := by
  let key : String → ℕᵒᵈ ×ₗ String := fun v => toLex (.toDual v.utf8ByteSize, v)
  have hkey : ∀ v w, precedes v w ↔ key v ≤ key w := by
    intro v w
    rw [Prod.Lex.le_iff]
    exact or_congr_right (and_congr_left' eq_comm)
  rw [Redact.LongestFirst, pairwise_map]
  refine (pairwise_insertionSort_of_key key hkey _).imp fun {v w} hvw hpre => ?_
  -- a value that begins another one has no more bytes than it
  obtain ⟨t, ht⟩ := hpre
  have hw : w = v ++ String.ofList t := String.toList_inj.mp (by simp [ht])
  have hsize : w.utf8ByteSize = v.utf8ByteSize + (String.ofList t).utf8ByteSize := by
    rw [hw, String.utf8ByteSize_append]
  have hempty : String.ofList t = "" := by
    have hle : w.utf8ByteSize ≤ v.utf8ByteSize := Prod.Lex.monotone_fst _ _ hvw
    have hzero : (String.ofList t).utf8ByteSize = 0 := by omega
    exact String.utf8ByteSize_eq_zero_iff.mp hzero
  rw [hw, hempty, String.append_empty]

/-! ## What a masker hides -/

theorem toList_replacement : replacement.toList = ['*', '*', '*'] := rfl

theorem toList_mask (m : Masker) (text : String) :
    (m.mask text).toList = Redact.redact (m.map String.toList) replacement.toList text.toList := by
  rw [Masker.mask, String.toList_ofList]

theorem mask_eq_empty {text : String} : (new values).mask text = "" ↔ text = "" := by
  constructor
  · intro h
    have hlist : ((new values).mask text).toList = [] := by rw [h]; rfl
    rw [toList_mask, Redact.redact_eq_nil (values_ne_nil values) (by simp [toList_replacement])] at hlist
    exact String.toList_inj.mp hlist
  · rintro rfl
    rfl

/-- No value of a masker shows in the masked parts of a text that do not cut it, if it has no
asterisk. -/
theorem not_infix_mask_of_mem (hh : h ∈ new values) (hstars : '*' ∉ h.toList) {parts : List String}
    (hcut : ¬ Redact.Cut h.toList (parts.map String.toList)) :
    ¬ h.toList <:+: (parts.map fun part => ((new values).mask part).toList).flatten := by
  intro hshown
  have hmark : replacement.toList ≠ [] := by simp [toList_replacement]
  refine Redact.not_infix_redact (values_ne_nil values) hmark (mem_map_of_mem hh)
    (fun a ha hmark => ?_) hcut ?_
  · -- the mark is made of asterisks
    have hstar : a = '*' := by
      rw [toList_replacement] at hmark
      simpa using hmark
    exact hstars (hstar ▸ ha)
  · simp only [toList_mask] at hshown
    rwa [flatMap_map, flatMap_def]

theorem not_infix_mask_single_of_mem (hh : h ∈ new values) (hstars : '*' ∉ h.toList)
    (text : String) : ¬ h.toList <:+: ((new values).mask text).toList := by
  have hone := @not_infix_mask_of_mem values h hh hstars [text] (Redact.not_cut_single _ _)
  rwa [map_singleton, flatten_singleton] at hone

theorem not_infix_mask (hv : v ∈ values) (hcovered : isCovered v = true) (hstars : '*' ∉ v.toList)
    {parts : List String} (hcut : ¬ Redact.Cut (trimReturns v).toList (parts.map String.toList)) :
    ¬ v.toList <:+: (parts.map fun part => ((new values).mask part).toList).flatten := by
  intro h
  have hpre := trimReturns_prefix v
  exact not_infix_mask_of_mem (trimReturns_mem_new hv hcovered)
    (fun hstar => hstars (hpre.subset hstar))
    hcut (hpre.isInfix.trans h)

theorem not_infix_mask_single (hv : v ∈ values) (hcovered : isCovered v = true)
    (hstars : '*' ∉ v.toList) (text : String) :
    ¬ v.toList <:+: ((new values).mask text).toList := by
  have hone := @not_infix_mask values v hv hcovered hstars [text] (Redact.not_cut_single _ _)
  rwa [map_singleton, flatten_singleton] at hone

/-- For each character of a text, whether it is stored as it is. -/
def stored (values : List String) (text : String) : List Bool :=
  Redact.keeps ((new values).map String.toList) text.toList

end SecretMask

end GitSlice
