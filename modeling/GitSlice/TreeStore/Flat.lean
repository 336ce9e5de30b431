import GitSlice.TreeStore.Edit

/-! # Flat edits
An edit set is **flat** on a tree when it changes single files: no path it changes or reads is a
folder, and every folder above a path it changes is a folder afterwards. What such edits do not
name, they leave alone: a path that is not a folder afterwards and is not changed by name is as it
was (`Flat.untouched`), and a folder stays a folder (`Flat.folder_kept`). Edits of whole folders,
and deletes that take the last file of a folder with the folder, are what makes this false in
general. -/

namespace GitSlice

open Node List

/-- There is a folder at the path. -/
def Node.folderAt (n : Node) (p : List String) : Bool :=
  match n.getEntry p with
  | some (.directory _) => true
  | _ => false

variable {p q : List String}
theorem Node.folderAt_iff {n : Node} :
    n.folderAt p = true ↔ ∃ c, n.getEntry p = some (.directory c) := by
  rw [Node.folderAt]
  split
  · rename_i c hc
    exact ⟨fun _ => ⟨c, hc⟩, fun _ => rfl⟩
  · rename_i hnone
    constructor
    · intro h
      cases h
    · rintro ⟨c, hc⟩
      exact absurd hc (hnone c)

variable {n n' : Node}

theorem Node.folderAt_congr (h : n'.getEntry p = n.getEntry p) : n'.folderAt p = n.folderAt p := by
  rw [Node.folderAt, Node.folderAt, h]

theorem Node.folderAt_above {e : Entry} (hp : p <+: q) (hne : p ≠ q) (h : n.getEntry q = some e) :
    n.folderAt p = true :=
  Node.folderAt_iff.mpr (exists_directory_of_above hp hne h)

theorem Node.getEntry_below (h : n.folderAt p = false) (hp : p <+: q) (hne : p ≠ q) :
    n.getEntry q = none := by
  cases hq : n.getEntry q with
  | none => rfl
  | some e =>
    rw [Node.folderAt_above hp hne hq] at h
    cases h

/-- The edits are **flat** on a tree, and lead to another. -/
structure Flat (n : Node) (edits : List TreeEdit) (n' : Node) : Prop where
  applies : applyEditSet n edits = .ok n'
  separate : Separate n edits
  files : ∀ e ∈ edits, ∀ p ∈ e.writes ++ e.reads, n.folderAt (splitPath p) = false
  folders : ∀ p ∈ writtenParts edits, ∀ q, q <+: p → q ≠ p → n'.folderAt q = true

namespace Flat

variable {edits : List TreeEdit}

theorem exists_edit (hp : p ∈ writtenParts edits) :
    ∃ e ∈ edits, ∃ u ∈ e.writes, splitPath u = p := by
  obtain ⟨u, hu, rfl⟩ := mem_map.mp hp
  obtain ⟨e, he, hw⟩ := mem_flatMap.mp hu
  exact ⟨e, he, u, hw, rfl⟩

section

variable (h : Flat n edits n')
include h

theorem changesIn : ChangesIn (writtenParts edits) n n' :=
  applyEditSet_changesIn h.applies h.separate.unnested.editsLand

theorem effect : ∀ e ∈ edits, e.Effect n n' :=
  applyEditSet_effect h.applies h.separate

theorem not_folder (hp : p ∈ writtenParts edits) : n.folderAt p = false := by
  obtain ⟨e, he, u, hu, rfl⟩ := exists_edit hp
  exact h.files e he u (mem_append_left _ hu)

theorem source_file {e : TreeEdit} (he : e ∈ edits) {old : Path}
    (hold : old ∈ e.writes ++ e.reads) {entry : Entry}
    (hentry : n.getEntry (splitPath old) = some entry) :
    ∃ f, entry = .file f := by
  have hfile := h.files e he old hold
  cases entry with
  | file f => exact ⟨f, rfl⟩
  | directory c =>
    rw [Node.folderAt_iff.mpr ⟨c, hentry⟩] at hfile
    cases hfile

theorem getEntry_below_written (hp : p ∈ writtenParts edits)
    (hq : p <+: q) (hne : p ≠ q) : n'.getEntry q = none := by
  obtain ⟨e, he, u, hu, rfl⟩ := exists_edit hp
  have heffect := h.effect e he
  obtain ⟨r, rfl⟩ := hq
  have hr : r ≠ [] := by
    rintro rfl
    exact hne (append_nil _).symm
  obtain ⟨a, r, rfl⟩ := exists_cons_of_ne_nil hr
  cases e with
  | upsert p f =>
    rw [mem_singleton.mp hu]
    have hfile : n'.getEntry (splitPath p) = some (.file f) := heffect
    show n'.getEntry (splitPath p ++ a :: r) = none
    rw [getEntry_append, hfile]
    rfl
  | delete =>
    rw [mem_singleton.mp hu]
    exact heffect (a :: r)
  | mkdir p =>
    rw [mem_singleton.mp hu]
    have hfolder : n.folderAt (splitPath p) = false :=
      h.files _ he p (mem_append_left _ (by simp [Edit.writes, Edit.path]))
    have hnew : (∃ c, n.getEntry (splitPath p) = some (.directory c) ∧
        n'.getEntry (splitPath p) = some (.directory c)) ∨
        n.getEntry (splitPath p) = none ∧
          n'.getEntry (splitPath p) = some (.directory .nil) := heffect
    rcases hnew with ⟨c, hc, -⟩ | ⟨-, hnew⟩
    · rw [Node.folderAt_iff.mpr ⟨c, hc⟩] at hfolder
      cases hfolder
    · show n'.getEntry (splitPath p ++ a :: r) = none
      rw [getEntry_append, hnew]
      exact getEntry_nil_cons a r
  | rename =>
    obtain ⟨entry, hentry, hnew, hgone⟩ := heffect
    obtain ⟨f, rfl⟩ := h.source_file he (by simp [Edit.writes]) hentry
    rcases mem_cons.mp hu with rfl | hu
    · rw [hnew]
      rfl
    · rw [mem_singleton.mp hu]
      exact hgone (a :: r)
  | copy old p =>
    obtain ⟨entry, hentry, hnew⟩ := heffect
    obtain ⟨f, rfl⟩ := h.source_file he (by simp [Edit.reads]) hentry
    rw [mem_singleton.mp hu]
    show n'.getEntry (splitPath p ++ a :: r) = none
    rw [hnew]
    rfl

/-- **What flat edits leave alone**: a path they do not change by name, unless it is a folder. -/
theorem untouched (hq : q ∉ writtenParts edits)
    (hfile : n'.folderAt q = false) : n'.getEntry q = n.getEntry q := by
  by_cases hover : ∃ p ∈ writtenParts edits, Overlaps p q
  · obtain ⟨p, hp, hpq | hqp⟩ := hover
    · have hne : p ≠ q := fun heq => hq (heq ▸ hp)
      rw [h.getEntry_below_written hp hpq hne, Node.getEntry_below (h.not_folder hp) hpq hne]
    · have hne : q ≠ p := fun heq => hq (heq ▸ hp)
      rw [h.folders p hp q hqp hne] at hfile
      cases hfile
  · exact h.changesIn.frame q fun p hp ho => hover ⟨p, hp, ho⟩

theorem folder_kept (hq : n.folderAt q = true) : n'.folderAt q = true := by
  by_cases hover : ∃ p ∈ writtenParts edits, Overlaps p q
  · obtain ⟨p, hp, hpq | hqp⟩ := hover
    · -- a path changed is not a folder, so nothing is below it and it is not `q` itself
      have hnot := h.not_folder hp
      obtain ⟨c, hc⟩ := Node.folderAt_iff.mp hq
      by_cases hne : p = q
      · rw [hne, hq] at hnot
        cases hnot
      · rw [Node.getEntry_below hnot hpq hne] at hc
        cases hc
    · by_cases hne : q = p
      · rw [hne, h.not_folder hp] at hq
        cases hq
      · exact h.folders p hp q hqp hne
  · rw [Node.folderAt_congr (h.changesIn.frame q fun p hp ho => hover ⟨p, hp, ho⟩)]
    exact hq

end

end Flat

/-! ## Deciding -/

variable {edits : List TreeEdit}

theorem separate_iff : Separate n edits ↔
    Apart (writtenParts edits) ∧ (∀ p ∈ writtenParts edits, p ≠ []) ∧
      (∀ e ∈ edits, ∀ old ∈ e.reads, ∀ p ∈ writtenParts edits, ¬ Overlaps p (splitPath old)) ∧
      ∀ p ∈ writtenParts edits, ∀ q ∈ p.inits, q ≠ p → n.fileAt q = none := by
  constructor
  · intro h
    exact ⟨h.apart, h.nonroot, h.sources, fun p hp q hq => h.above p hp q (mem_inits q p |>.mp hq)⟩
  · rintro ⟨hapart, hnonroot, hsources, habove⟩
    exact ⟨hapart, hnonroot, hsources, fun p hp q hq => habove p hp q (mem_inits q p |>.mpr hq)⟩

instance (ps : List (List String)) : Decidable (Apart ps) :=
  inferInstanceAs (Decidable (ps.Pairwise fun p q => ¬ Overlaps p q))

instance (n : Node) (edits : List TreeEdit) : Decidable (Separate n edits) :=
  decidable_of_iff _ separate_iff.symm

theorem flat_iff : Flat n edits n' ↔
    applyEditSet n edits = .ok n' ∧ Separate n edits ∧
      (∀ e ∈ edits, ∀ p ∈ e.writes ++ e.reads, n.folderAt (splitPath p) = false) ∧
      ∀ p ∈ writtenParts edits, ∀ q ∈ p.inits, q ≠ p → n'.folderAt q = true := by
  constructor
  · intro h
    exact ⟨h.applies, h.separate, h.files,
      fun p hp q hq => h.folders p hp q (mem_inits q p |>.mp hq)⟩
  · rintro ⟨happlies, hsep, hfiles, hfolders⟩
    exact ⟨happlies, hsep, hfiles, fun p hp q hq => hfolders p hp q (mem_inits q p |>.mpr hq)⟩

instance (n n' : Node) (edits : List TreeEdit) : Decidable (Flat n edits n') :=
  decidable_of_iff _ flat_iff.symm

end GitSlice
