import GitSlice.LazyFS.Changes
import GitSlice.LazyFS.Effects

/-! # New layers
`addParentDirs` completes a set of entries: what an entry other than a whiteout needs above it is a
directory of the base, or becomes one of the layer. A layer made that way is sound when its content
files are (`sound_replaceLayer`), so `Switch` and `Rebase` keep layers sound. -/

namespace GitSlice.LazyFS.FS

open List

variable {base : Manifest} {next : Table Path LocalEntry} {d p : Path}

/-- What `addParentDirs` makes of the entry at a directory that something needs. -/
def asDir (base : Manifest) (d : Path) : Option LocalEntry → Option LocalEntry
  | some (.dir isOpaque) => some (.dir isOpaque)
  | none => if isDirEntry (base.lookup d) then none else some (.dir false)
  | some _ => some (.dir false)

@[simp] theorem asDir_asDir (base : Manifest) (d : Path) (o : Option LocalEntry) :
    asDir base d (asDir base d o) = asDir base d o := by
  cases o with
  | none =>
    by_cases hdir : isDirEntry (base.lookup d) = true <;> simp [asDir, hdir]
  | some e => cases e <;> rfl

theorem get_addParent (base : Manifest) (t : Table Path LocalEntry) (dir d : Path) :
    (addParent base t dir).get d = if d = dir then asDir base d (t.get d) else t.get d := by
  rw [addParent]
  split
  · rename_i isOpaque he
    split_ifs with hd
    · rw [hd, he]
      rfl
    · rfl
  · rename_i he
    by_cases hdir : isDirEntry (base.lookup dir) = true
    · rw [if_pos hdir]
      split_ifs with hd
      · rw [hd, he]
        simp [asDir, hdir]
      · rfl
    · rw [if_neg hdir, Table.get_set]
      split_ifs with hd
      · rw [hd, he]
        simp [asDir, hdir]
      · rfl
  · rename_i e hne he
    rw [Table.get_set]
    split_ifs with hd
    · rw [hd, he]
      cases e with
      | dir isOpaque => exact absurd rfl (hne isOpaque)
      | _ => rfl
    · rfl

theorem get_addParents (base : Manifest) (t : Table Path LocalEntry) (r : List String) (d : Path) :
    (addParents base t r).get d =
      if d <+: r.reverse ∧ d ≠ [] then asDir base d (t.get d) else t.get d := by
  induction r generalizing t with
  | nil => simp [addParents]
  | cons name above ih =>
    have hself : ¬ (name :: above).reverse <+: above.reverse := by
      intro hle
      have hlen := hle.length_le
      simp at hlen
    rw [addParents, ih, get_addParent]
    by_cases hd : d = (name :: above).reverse
    · subst hd
      rw [if_neg fun h => hself h.1, if_pos rfl, if_pos ⟨prefix_refl _, by simp⟩]
    · rw [if_neg hd]
      refine if_congr (and_congr_left fun _ => ?_) rfl rfl
      rw [reverse_cons] at hd ⊢
      rw [prefix_concat_iff, or_iff_right hd]

/-- Something other than a whiteout lies under the directory. -/
def Needs (next : Table Path LocalEntry) (d : Path) : Prop :=
  ∃ p e, next.get p = some e ∧ e ≠ .whiteout ∧ d <+: p ∧ d ≠ p ∧ d ≠ []

open Classical in
/-- **`addParentDirs`** completes the directories that are needed and leaves the rest. -/
theorem get_addParentDirs (base : Manifest) (next : Table Path LocalEntry) (d : Path) :
    (addParentDirs base next).get d =
      if Needs next d then asDir base d (next.get d) else next.get d := by
  let P : Path × LocalEntry → Prop := fun row => row.2 ≠ .whiteout ∧ d <+: row.1.dropLast ∧ d ≠ []
  let f : Table Path LocalEntry → Path × LocalEntry → Table Path LocalEntry := fun t row =>
    if row.2 = .whiteout then t else addParents base t row.1.dropLast.reverse
  have hstep : ∀ t row, (f t row).get d = if P row then asDir base d (t.get d) else t.get d := by
    intro t row
    by_cases hw : row.2 = .whiteout
    · simp [f, P, hw]
    · simp [f, P, hw, get_addParents]
  have hfold : ∀ (rows : List (Path × LocalEntry)) (t : Table Path LocalEntry),
      (rows.foldl f t).get d =
        if ∃ row ∈ rows, P row then asDir base d (t.get d) else t.get d := by
    intro rows
    induction rows with
    | nil => simp
    | cons row rows ih =>
      intro t
      rw [foldl_cons, ih, hstep]
      simp only [exists_mem_cons_iff]
      by_cases hhere : P row <;> by_cases hrest : ∃ row ∈ rows, P row <;> simp only [hhere, hrest,
        or_true, true_or, or_self, if_true, if_false, asDir_asDir]
  rw [addParentDirs, hfold]
  refine if_congr ?_ rfl rfl
  constructor
  · rintro ⟨⟨p, e⟩, hmem, hw, hle, hnil⟩
    obtain ⟨hle, hne⟩ := (prefix_dropLast_iff hnil).mp hle
    exact ⟨p, e, (next.mem_rows_iff p e).mp hmem, hw, hle, hne, hnil⟩
  · rintro ⟨p, e, hget, hw, hle, hne, hnil⟩
    exact ⟨(p, e), (next.mem_rows_iff p e).mpr hget, hw,
      (prefix_dropLast_iff hnil).mpr ⟨hle, hne⟩, hnil⟩

variable {e : LocalEntry}

theorem asDir_cases {o : Option LocalEntry} (h : asDir base d o = some e) :
    o = some e ∨ e = .dir false := by
  cases o with
  | none =>
    rw [asDir] at h
    split_ifs at h
    exact .inr (Option.some.inj h).symm
  | some e' =>
    cases e' with
    | dir => exact .inl h
    | _ => exact .inr (Option.some.inj h).symm

/-- An entry of the completed layer was there, or is a directory that something needs. -/
theorem addParentDirs_cases (h : (addParentDirs base next).get p = some e) :
    next.get p = some e ∨ (e = .dir false ∧ Needs next p) := by
  rw [get_addParentDirs] at h
  split_ifs at h with hneeds
  · exact (asDir_cases h).imp_right fun he => ⟨he, hneeds⟩
  · exact .inl h

theorem needs_of_entry (h : (addParentDirs base next).get p = some e) (hw : e ≠ .whiteout)
    (hd : d <+: p) (hne : d ≠ p) (hnil : d ≠ []) : Needs next d := by
  rcases addParentDirs_cases h with hget | ⟨-, q, e', hget, hw', hle, hne', -⟩
  · exact ⟨p, e, hget, hw, hd, hne, hnil⟩
  · refine ⟨q, e', hget, hw', hd.trans hle, ?_, hnil⟩
    rintro rfl
    exact hne (hd.eq_of_length (le_antisymm hd.length_le hle.length_le))

variable {s : FS}

theorem kindAt_of_needs (hbase : s.base = base) (hentries : s.entries = addParentDirs base next)
    (hplain : ∀ p, next.get p ≠ some (.dir true)) (hneeds : Needs next d) :
    s.kindAt d = some .dir := by
  let c : Content := ⟨fun _ => [], fun _ => ""⟩
  obtain ⟨q, e, hget, hw, hle, hne, hnil⟩ := hneeds
  have habove : ∀ x, x <+: d → x ≠ [] → Needs next x := fun x hx hxnil =>
    ⟨q, e, hget, hw, hx.trans hle, fun heq => hne (hle.eq_of_length
      (le_antisymm hle.length_le (heq ▸ hx.length_le))), hxnil⟩
  have hentry : ∀ x, x <+: d → x ≠ [] → s.entries.get x = some (.dir false) ∨
      (s.entries.get x = none ∧ isDirEntry (base.lookup x) = true) := by
    intro x hx hxnil
    rw [hentries, get_addParentDirs, if_pos (habove x hx hxnil)]
    cases ho : next.get x with
    | none =>
      by_cases hdir : isDirEntry (base.lookup x) = true
      · exact .inr ⟨by simp [asDir, hdir], hdir⟩
      · exact .inl (by simp [asDir, hdir])
    | some e' =>
      cases e' with
      | dir isOpaque =>
        cases isOpaque with
        | false => exact .inl rfl
        | true => exact absurd ho (hplain x)
      | _ => exact .inl rfl
  rw [kindAt_eq_dir c]
  rcases hentry d (prefix_refl d) hnil with hself | ⟨hself, hdir⟩
  · rw [view_of_entry hnil hself]
    rfl
  · have hvisible : s.baseVisible d = true := by
      rw [baseVisible_iff]
      intro x hx _ hxnil
      rcases hentry x hx hxnil with hdirx | ⟨hnone, -⟩
      · exact .inr hdirx
      · exact .inl hnone
    rw [view_of_none hnil hself, if_pos hvisible, hbase]
    obtain ⟨b, hb, hkind⟩ := Option.any_eq_true _ _ |>.mp hdir
    rw [hb, Option.map_some, baseObj, of_decide_eq_true hkind]

variable {name : Nat}

theorem mem_localFiles :
    name ∈ s.localFiles ↔ ∃ p mode, s.entries.get p = some (.file mode name) := by
  rw [localFiles, mem_filterMap]
  constructor
  · rintro ⟨⟨p, e⟩, hmem, hname⟩
    cases e with
    | file mode =>
      cases hname
      exact ⟨p, mode, (s.entries.mem_rows_iff _ _).mp hmem⟩
    | _ => cases hname
  · rintro ⟨p, mode, hget⟩
    exact ⟨(p, .file mode name), (s.entries.mem_rows_iff _ _).mpr hget, rfl⟩

theorem files_replaceLayer (s : FS) (newBase : Manifest) (next : Table Path LocalEntry)
    (used : List Nat) (files : Table Nat Bytes) (nextName : Nat) (hused : name ∈ used) :
    (s.replaceLayer newBase next used files nextName).files.get name = files.get name := by
  rw [replaceLayer, Table.get_foldl_erase, if_neg]
  intro hmem
  have hnot := (mem_filter.mp hmem).2
  simp [hused] at hnot

/-- What a new layer has to satisfy before its directories are completed. -/
structure LayerOk (next : Table Path LocalEntry) (used : List Nat) (files : Table Nat Bytes)
    (nextName : Nat) : Prop where
  root : next.get [] = none
  plain : ∀ p, next.get p ≠ some (.dir true)
  present : ∀ p mode name, next.get p = some (.file mode name) → name ∈ used ∧ files.get name ≠ none
  apart : ∀ p q mode mode' name, next.get p = some (.file mode name) →
    next.get q = some (.file mode' name) → p = q
  fresh : ∀ name, nextName ≤ name → files.get name = none
  normal : ∀ p e, next.get p = some e → NormalEntry e

/-- **A new layer is sound.** -/
theorem sound_replaceLayer (s : FS) (newBase : Manifest) {used : List Nat} {files : Table Nat Bytes}
    {nextName : Nat} (h : LayerOk next used files nextName) :
    (s.replaceLayer newBase (addParentDirs newBase next) used files nextName).Sound := by
  have hfile : ∀ {p : Path} {mode name : Nat},
      (addParentDirs newBase next).get p = some (.file mode name) →
      next.get p = some (.file mode name) := by
    intro p mode name hget
    rcases addParentDirs_cases hget with hold | ⟨heq, -⟩
    · exact hold
    · cases heq
  constructor
  case root =>
    have hget := get_addParentDirs newBase next []
    rw [if_neg, h.root] at hget
    · exact hget
    · rintro ⟨p, e, -, -, -, -, hnil⟩
      exact hnil rfl
  case above =>
    intro p e he hw d hd hne
    by_cases hnil : d = []
    · rw [hnil]
      rfl
    · exact kindAt_of_needs rfl rfl h.plain (needs_of_entry he hw hd hne hnil)
  case present =>
    intro p mode name he
    obtain ⟨hused, hpresent⟩ := h.present p mode name (hfile he)
    rw [files_replaceLayer _ _ _ _ _ _ hused]
    exact hpresent
  case apart =>
    intro p q mode mode' name hp hq
    exact h.apart p q mode mode' name (hfile hp) (hfile hq)
  case fresh =>
    intro name hname
    rw [replaceLayer, Table.get_foldl_erase]
    split_ifs
    · rfl
    · exact h.fresh name hname
  case normal =>
    intro p e he
    rcases addParentDirs_cases he with hold | ⟨rfl, -⟩
    · exact h.normal p e hold
    · trivial

end GitSlice.LazyFS.FS
