import GitSlice.Library.PathMap
import GitSlice.TreeStore.Leaves

/-! # The tree store as a path map
What a tree store is for: a tree is a path map of files and directories, and an edit changes the map
as its operation says (`PathMap.edit`). The module proves that `applyEditsSequential` computes this
on trees (`edit_simulates`, `sequential_simulates`), for edits that lose no error.

`Edit.Regular` says which those are. The tree store loses the error of a rename or a copy to a path
that it cannot write; it takes the root for a path without an entry, so it deletes nothing there and
has nothing to move. -/

namespace GitSlice

open Node List Option

/-- A path map of the files of a tree. -/
abbrev Files := PathMap String FileEntry

/-- An entry without the node of a directory. -/
def Entry.kind : Entry → PathKind FileEntry
  | .file f => .file f
  | .directory _ => .directory

/-! ## The edits of a path map -/

namespace PathMap

open Classical in
/-- What an edit does to a path map: an upsert makes the directories it needs and replaces what is
there; a delete takes away what is there and every directory that this empties; a rename moves a
subtree and a copy duplicates it. The edit is refused where a file is in the way or nothing is at
the source. A path stands for what `splitPath` reads it as, which is the store's own syntax of
paths. -/
noncomputable def edit (m : Files) : TreeEdit → Option Files
  | .upsert p f =>
    if h : splitPath p ≠ [] ∧ m.Free (splitPath p) then
      some (m.put (splitPath p) (leaf f) h.1 (closed_leaf f))
    else none
  | .mkdir p =>
    if splitPath p ≠ [] ∧ ∀ q, q <+: splitPath p → ∀ f, m.get q ≠ some (.file f) then
      some (m.mkdirs (splitPath p))
    else none
  | .delete p => some (m.delete (splitPath p))
  | .rename old p =>
    if h : m.get (splitPath old) ≠ none then
      if h' : splitPath p ≠ [] ∧ (m.delete (splitPath old)).Free (splitPath p) then
        some ((m.delete (splitPath old)).put (splitPath p) (m.sub (splitPath old)) h'.1 (closed_sub h))
      else none
    else none
  | .copy old p =>
    if h : m.get (splitPath old) ≠ none then
      if h' : splitPath p ≠ [] ∧ m.Free (splitPath p) then
        some (m.put (splitPath p) (m.sub (splitPath old)) h'.1 (closed_sub h))
      else none
    else none

/-- The edits in order. -/
noncomputable def edits (m : Files) (es : List TreeEdit) : Option Files := es.foldlM edit m

end PathMap

/-- The edit says something on the map that the tree store does: the root is no path to delete, to
move or to copy, and a rename or a copy has a path that can be written. -/
def Edit.Regular (m : Files) : TreeEdit → Prop
  | .delete p => splitPath p ≠ []
  | .rename old p => splitPath old ≠ [] ∧ splitPath p ≠ [] ∧
      ∀ q, q <+: splitPath p → q ≠ splitPath p → ¬ splitPath old <+: q →
        ∀ f, m.get q ≠ some (.file f)
  | .copy old p => splitPath old ≠ [] ∧ splitPath p ≠ [] ∧ m.Free (splitPath p)
  | .upsert _ _ | .mkdir _ => True

/-- Every edit of the list is regular where it is applied. -/
def EditsRegular : Files → List TreeEdit → Prop
  | _, [] => True
  | m, e :: rest => e.Regular m ∧ ∀ m', m.edit e = some m' → EditsRegular m' rest

/-! ## The map of a tree -/

namespace Node

/-- What is at a path of a tree. -/
def kindAt (n : Node) (p : List String) : Option (PathKind FileEntry) :=
  (n.getEntry p).map Entry.kind

variable {n : Node} {p : List String}

theorem kindAt_ne_none : n.kindAt p ≠ none ↔ ∃ e, n.getEntry p = some e := by
  rw [kindAt, Ne, map_eq_none_iff, ← Ne, ne_none_iff_exists']

theorem kindAt_eq_file {f : FileEntry} :
    n.kindAt p = some (.file f) ↔ n.getEntry p = some (.file f) := by
  rw [kindAt, map_eq_some_iff]
  constructor
  · rintro ⟨e, he, hk⟩
    cases e with
    | file =>
      cases hk
      exact he
    | directory => cases hk
  · intro h
    exact ⟨_, h, rfl⟩

theorem kindAt_eq_directory :
    n.kindAt p = some .directory ↔ ∃ c, n.getEntry p = some (.directory c) := by
  rw [kindAt, map_eq_some_iff]
  constructor
  · rintro ⟨e, he, hk⟩
    cases e with
    | file => cases hk
    | directory c => exact ⟨c, he⟩
  · rintro ⟨c, hc⟩
    exact ⟨_, hc, rfl⟩

theorem fileAt_eq_none_iff : n.fileAt p = none ↔ ∀ f, n.kindAt p ≠ some (.file f) := by
  rw [eq_none_iff_forall_ne_some]
  simp only [Ne, fileAt_eq_some, kindAt_eq_file]

/-- The **path map of a tree**. -/
def files (n : Node) : Files where
  get := n.kindAt
  root := rfl
  above := by
    intro p q hpq hne hq
    obtain ⟨e, he⟩ := kindAt_ne_none.mp hq
    exact kindAt_eq_directory.mpr (exists_directory_of_above hpq hne he)

theorem get_files_eq_none (h : n.getEntry p = none) : n.files.get p = none :=
  congrArg (Option.map Entry.kind) h

variable {n' : Node} {q : List String}

theorem kindAt_congr (h : n'.getEntry q = n.getEntry p) : n'.kindAt q = n.kindAt p := by
  rw [kindAt, kindAt, h]

variable {e : Entry}

theorem exists_entry_of_leafAt (h : n.leafAt p ≠ none) :
    ∃ e, n.getEntry p = some e := by
  rw [← ne_none_iff_exists']
  intro hnone
  exact h (leafAt_eq_none_of_getEntry hnone)

/-! ## The writers as operations of the map -/

variable {required : String}

theorem kindAt_setAt (h : setAt required n p e = .ok n') (q : List String) :
    n'.kindAt q = if p <+: q then (e.under (q.drop p.length)).map Entry.kind
      else if q <+: p then some .directory else n.kindAt q := by
  split_ifs with hpq hqp
  · obtain ⟨r, rfl⟩ := hpq
    rw [kindAt, getEntry_setAt h, drop_left]
  · have hne : q ≠ p := fun heq => hpq (heq ▸ prefix_refl p)
    exact kindAt_eq_directory.mpr (exists_directory_setAt h hqp hne)
  · refine kindAt_congr ((changesIn_setAt h).frame q fun x hx ho => ?_)
    rw [mem_singleton.mp hx] at ho
    exact ho.elim hpq hqp

theorem fileAt_of_setAt (h : setAt required n p e = .ok n') (hq : q <+: p) (hne : q ≠ p) :
    n.fileAt q = none := by
  obtain ⟨c, hc⟩ := exists_directory_setAt h hq hne
  rw [← (changesIn_setAt h).files q, fileAt, hc]
  intro x hx hxq
  rw [mem_singleton.mp hx] at hxq
  exact hne (hq.eq_of_length_le hxq.length_le)

theorem kindAt_setDirectory (h : setDirectory n p = .ok n') (q : List String) :
    n'.kindAt q = if q <+: p then some .directory else n.kindAt q := by
  have hat := getEntry_setDirectory h
  have hp : ∃ c, n'.getEntry p = some (.directory c) := by
    rcases hat with ⟨c, -, hc⟩ | ⟨-, hc⟩
    · exact ⟨c, hc⟩
    · exact ⟨_, hc⟩
  obtain ⟨c, hc⟩ := hp
  split_ifs with hqp
  · by_cases hne : q = p
    · exact kindAt_eq_directory.mpr ⟨c, hne ▸ hc⟩
    · exact kindAt_eq_directory.mpr (exists_directory_of_above hqp hne hc)
  · by_cases hpq : p <+: q
    · -- below the directory nothing changes: it was there, or there is nothing
      obtain ⟨r, rfl⟩ := hpq
      obtain ⟨a, r, rfl⟩ := exists_cons_of_ne_nil fun hnil : r = [] =>
        hqp (by rw [hnil, append_nil])
      apply kindAt_congr
      rw [getEntry_append, getEntry_append]
      rcases hat with ⟨d, hd, hd'⟩ | ⟨hnone, hd'⟩
      · rw [hd, hd']
      · rw [hnone, hd']
        exact getEntry_nil_cons a r
    · refine kindAt_congr ((changesIn_setDirectory h).frame q fun x hx ho => ?_)
      rw [mem_singleton.mp hx] at ho
      exact ho.elim hpq hqp

theorem exists_setDirectory (hp : p ≠ []) (hopen : ∀ q, q <+: p → n.fileAt q = none) :
    ∃ n', setDirectory n p = .ok n' := by
  induction p generalizing n with
  | nil => exact absurd rfl hp
  | cons a p ih =>
    have hfile := findEntry_ne_file (hopen [a] (cons_prefix_cons.mpr ⟨rfl, nil_prefix⟩))
    cases p with
    | nil =>
      rw [setDirectory]
      split
      · rename_i f hf
        exact absurd hf (hfile f)
      · exact ⟨_, rfl⟩
      · exact ⟨_, rfl⟩
    | cons b p =>
      have hbelow : ∀ q, q <+: b :: p → (n.child a).fileAt q = none := by
        intro q hq
        exact fileAt_child_eq_none (hopen (a :: q) (cons_prefix_cons.mpr ⟨rfl, hq⟩))
      obtain ⟨c, hc⟩ := ih (cons_ne_nil b p) hbelow
      refine ⟨n.upsertEntry a (.directory c), ?_⟩
      rw [setDirectory]
      split
      · rename_i f hf
        exact absurd hf (hfile f)
      · rw [hc]
        rfl

theorem fileAt_of_setDirectory (h : setDirectory n p = .ok n') (hq : q <+: p) :
    n.fileAt q = none := by
  by_cases hne : q = p
  · subst hne
    rcases getEntry_setDirectory h with ⟨c, hc, -⟩ | ⟨hnone, -⟩
    · rw [fileAt, hc]
    · rw [fileAt, hnone]
  · have hdir := kindAt_setDirectory h q
    rw [if_pos hq] at hdir
    obtain ⟨c, hc⟩ := kindAt_eq_directory.mp hdir
    rw [← (changesIn_setDirectory h).files q, fileAt, hc]
    intro x hx hxq
    rw [mem_singleton.mp hx] at hxq
    exact hne (hq.eq_of_length_le hxq.length_le)

theorem emptied_iff {c : Node} (hpq : ¬ p <+: q) (hq : n.getEntry q = some (.directory c)) :
    n.files.Emptied p q ↔ ∀ r, n.leafAt (q ++ r) ≠ none → p <+: q ++ r := by
  constructor
  · rintro ⟨hqp, hp, hall⟩ r hr
    obtain ⟨e, he⟩ := kindAt_ne_none.mp hp
    have hnotBelow : ∀ t, t <+: p → t ≠ p → n.leafAt t = none := fun t ht hne =>
      leafAt_eq_none_of_below ht hne he
    by_cases hnil : r = []
    · -- a directory on the way to something is no leaf
      rw [hnil, append_nil] at hr
      exact absurd (hnotBelow q hqp fun heq => hpq (heq ▸ prefix_refl p)) hr
    · have hne : q ≠ q ++ r := fun heq => hnil (self_eq_append_right.mp heq)
      rcases hall (q ++ r) (prefix_append q r) hne
        (kindAt_ne_none.mpr (exists_entry_of_leafAt hr)) with hover | hover
      · exact hover
      · by_cases heq : q ++ r = p
        · rw [heq]
        · exact absurd (hnotBelow _ hover heq) hr
  · intro hall
    obtain ⟨r, hr⟩ := exists_leaf_of_getEntry hq
    have hpr := hall r hr
    have hor := prefix_or_prefix_of_prefix (prefix_append q r) hpr
    refine ⟨hor.resolve_right hpq, ?_, ?_⟩
    · obtain ⟨e, he⟩ := exists_entry_of_leafAt hr
      exact PathMap.get_ne_none_of_above hpr (kindAt_ne_none.mpr ⟨e, he⟩)
    · rintro t ⟨s, rfl⟩ - ht
      obtain ⟨e, he⟩ := kindAt_ne_none.mp ht
      obtain ⟨u, hu⟩ := exists_leaf_of_getEntry he
      have hpu := hall (s ++ u) (by rwa [← append_assoc])
      rw [← append_assoc] at hpu
      exact prefix_or_prefix_of_prefix hpu (prefix_append _ u)

/-- **A delete of a tree is a delete of its map.** -/
theorem files_deletePath (n : Node) (hp : p ≠ []) :
    (n.deletePath p).1.files = n.files.delete p := by
  apply PathMap.ext
  intro q
  rw [PathMap.get_delete]
  show (n.deletePath p).1.kindAt q = _
  by_cases hq : q = []
  · rw [hq]
    rfl
  have hleaves : ∀ r, (n.deletePath p).1.leafAt (q ++ r) =
      if p <+: q ++ r then none else n.leafAt (q ++ r) := fun r =>
    leafAt_deletePath n hp fun h => hq (append_eq_nil_iff.mp h).1
  by_cases hpq : p <+: q
  · obtain ⟨r, rfl⟩ := hpq
    rw [if_pos ⟨hq, .inl (prefix_append p r)⟩, kindAt, getEntry_deletePath n hp]
    rfl
  -- no file appears, and none goes that is not under the path
  have hfile : (n.deletePath p).1.fileAt q = n.fileAt q := by
    refine (changesIn_deletePath n p).files q fun x hx hxq => hpq ?_
    rwa [mem_singleton.mp hx] at hxq
  cases hentry : n.getEntry q with
  | none =>
    have hnone : (n.deletePath p).1.kindAt q = none := by
      by_contra hsome
      obtain ⟨e, he⟩ := kindAt_ne_none.mp hsome
      obtain ⟨r, hr⟩ := exists_leaf_of_getEntry he
      rw [hleaves] at hr
      split_ifs at hr
      · exact hr rfl
      · refine hr (leafAt_eq_none_of_getEntry ?_)
        rw [getEntry_append, hentry, bind_none]
    rw [hnone, get_files_eq_none hentry, ite_self]
  | some e =>
    cases e with
    | file f =>
      have hkept : (n.deletePath p).1.kindAt q = some (.file f) :=
        kindAt_eq_file.mpr (fileAt_eq_some.mp (hfile.trans (fileAt_eq_some.mpr hentry)))
      rw [hkept, if_neg]
      · exact (kindAt_eq_file.mpr hentry).symm
      · -- a file is above nothing
        rintro ⟨-, hover | ⟨hqp, hsome, -⟩⟩
        · exact hpq hover
        · refine hsome (PathMap.get_eq_none_of_file (kindAt_eq_file.mpr hentry) hqp ?_)
          exact fun heq => hpq (heq ▸ prefix_refl p)
    | directory c =>
      have hold : n.files.get q = some .directory := kindAt_eq_directory.mpr ⟨c, hentry⟩
      by_cases hall : ∀ r, n.leafAt (q ++ r) ≠ none → p <+: q ++ r
      · rw [if_pos ⟨hq, .inr ((emptied_iff hpq hentry).mpr hall)⟩]
        by_contra hsome
        obtain ⟨e, he⟩ := kindAt_ne_none.mp hsome
        obtain ⟨r, hr⟩ := exists_leaf_of_getEntry he
        rw [hleaves] at hr
        split_ifs at hr with hpr
        · exact hr rfl
        · exact hpr (hall r hr)
      · rw [if_neg fun h => h.2.elim hpq fun hemptied => hall ((emptied_iff hpq hentry).mp hemptied), hold]
        -- a leaf that stays keeps the directory
        simp only [not_forall] at hall
        obtain ⟨r, hr, hpr⟩ := hall
        have hstays : (n.deletePath p).1.files.get (q ++ r) ≠ none := by
          refine kindAt_ne_none.mpr (exists_entry_of_leafAt ?_)
          rwa [hleaves, if_neg hpr]
        have hthere := PathMap.get_ne_none_of_above (prefix_append q r) hstays
        obtain ⟨e, he⟩ := kindAt_ne_none.mp hthere
        cases e with
        | file =>
          rw [fileAt_eq_some.mpr he] at hfile
          have := fileAt_eq_some.mp hfile.symm
          rw [hentry] at this
          cases this
        | directory d => exact kindAt_eq_directory.mpr ⟨d, he⟩

end Node

/-! ## The edits -/

variable {n : Node} {p : List String}

theorem free_files : n.files.Free p ↔ ∀ q, q <+: p → q ≠ p → n.fileAt q = none := by
  simp only [fileAt_eq_none_iff]
  rfl

variable {e : Entry}

theorem files_setAt {required : String} {n' : Node} {t : List String → Option (PathKind FileEntry)}
    (hp : p ≠ []) (ht : PathMap.Closed t) (he : ∀ r, (e.under r).map Entry.kind = t r)
    (h : setAt required n p e = .ok n') : n'.files = n.files.put p t hp ht := by
  apply PathMap.ext
  intro q
  rw [PathMap.get_put, ← he]
  exact kindAt_setAt h q

theorem kind_under (h : n.getEntry p = some e) (r : List String) :
    (e.under r).map Entry.kind = n.files.sub p r := by
  show _ = n.kindAt (p ++ r)
  rw [kindAt, getEntry_append, h, bind_some]

theorem entryAt_eq_getEntry (hp : p ≠ []) : n.entryAt p = n.getEntry p := by
  rw [getEntry, if_neg hp]

theorem free_delete {old : List String} (hold : old ≠ [])
    (h : ∀ q, q <+: p → q ≠ p → ¬ old <+: q → ∀ f, n.files.get q ≠ some (.file f)) :
    (n.deletePath old).1.files.Free p := by
  rw [files_deletePath n hold]
  intro q hq hne f hf
  rw [PathMap.get_delete] at hf
  split_ifs at hf with hgone
  by_cases hnil : q = []
  · rw [hnil] at hf
    cases hf
  · exact h q hq hne (fun hover => hgone ⟨hnil, .inl hover⟩) f hf

/-- What a rename or a copy places is the part of the map at its source. -/
theorem files_ignoringError {m : Node} {old : List String} (hentry : n.getEntry old = some e)
    (hthere : n.files.get old ≠ none) (hp : p ≠ []) (hfree : m.files.Free p) :
    (Edit.ignoringError (m.setEntry p e)).files =
      m.files.put p (n.files.sub old) hp (PathMap.closed_sub hthere) := by
  obtain ⟨m', hm'⟩ : ∃ m', m.setEntry p e = .ok m' := exists_setAt _ e hp (free_files.mp hfree)
  rw [hm']
  exact files_setAt hp _ (kind_under hentry) hm'

/-- **One edit**: the tree store does to a tree what the edit does to its map. -/
theorem edit_simulates {e : TreeEdit} (hregular : e.Regular n.files) :
    (e.apply n).toOption.map Node.files = n.files.edit e := by
  cases e with
  | upsert p f =>
    simp only [Edit.apply, PathMap.edit]
    split_ifs with h
    · obtain ⟨n', hn'⟩ := exists_setAt "file path is required" (.file f) h.1 (free_files.mp h.2)
      rw [setFile, hn']
      refine congrArg some (files_setAt h.1 (PathMap.closed_leaf f) (fun r => ?_) hn')
      cases r with
      | nil => simp [PathMap.leaf, Entry.under, Entry.kind]
      | cons a r => simp [PathMap.leaf, Entry.under]
    · cases hset : n.setFile (splitPath p) f with
      | error => rfl
      | ok =>
        refine absurd ⟨?_, free_files.mpr fun q hq hne => fileAt_of_setAt hset hq hne⟩ h
        intro hnil
        rw [hnil] at hset
        cases hset
  | mkdir p =>
    simp only [Edit.apply, PathMap.edit]
    have hiff : (∀ q, q <+: splitPath p → ∀ f, n.files.get q ≠ some (.file f)) ↔
        ∀ q, q <+: splitPath p → n.fileAt q = none := by
      simp only [fileAt_eq_none_iff]
      rfl
    split_ifs with h
    · obtain ⟨n', hn'⟩ := exists_setDirectory h.1 (hiff.mp h.2)
      rw [hn']
      exact congrArg some (PathMap.ext fun q => kindAt_setDirectory hn' q)
    · cases hset : n.setDirectory (splitPath p) with
      | error => rfl
      | ok =>
        refine absurd ⟨?_, hiff.mpr fun q hq => fileAt_of_setDirectory hset hq⟩ h
        intro hnil
        rw [hnil] at hset
        cases hset
  | delete => exact congrArg some (files_deletePath n hregular)
  | rename old =>
    obtain ⟨hold, hp, hfree⟩ := hregular
    simp only [Edit.apply, PathMap.edit, entryAt_eq_getEntry hold]
    cases hentry : n.getEntry (splitPath old) with
    | none =>
      rw [dif_neg (not_not.mpr (get_files_eq_none hentry))]
      rfl
    | some x =>
      have hthere : n.files.get (splitPath old) ≠ none := kindAt_ne_none.mpr ⟨x, hentry⟩
      have hfree' := free_delete hold hfree
      have hplaced := files_ignoringError hentry hthere hp hfree'
      rw [files_deletePath n hold] at hfree' hplaced
      rw [dif_pos hthere, dif_pos ⟨hp, hfree'⟩]
      exact congrArg some hplaced
  | copy old =>
    obtain ⟨hold, hp, hfree⟩ := hregular
    simp only [Edit.apply, PathMap.edit, entryAt_eq_getEntry hold]
    cases hentry : n.getEntry (splitPath old) with
    | none =>
      rw [dif_neg (not_not.mpr (get_files_eq_none hentry))]
      rfl
    | some x =>
      have hthere : n.files.get (splitPath old) ≠ none := kindAt_ne_none.mpr ⟨x, hentry⟩
      rw [dif_pos hthere, dif_pos ⟨hp, hfree⟩]
      exact congrArg some (files_ignoringError hentry hthere hp hfree)

variable {edits : List TreeEdit}

/-- **The edits in order.** -/
theorem sequential_simulates (h : EditsRegular n.files edits) :
    (applyEditsSequential n edits).toOption.map Node.files = n.files.edits edits := by
  induction edits generalizing n with
  | nil => rfl
  | cons e edits ih =>
    have hstep := edit_simulates h.1
    rw [PathMap.edits, foldlM_cons, ← hstep, applyEditsSequential, foldlM_cons]
    cases hn : e.apply n with
    | error => rfl
    | ok n' =>
      rw [hn] at hstep
      exact ih (h.2 n'.files hstep.symm)

variable {q : List String}

theorem PathMap.edit_frame {m m' : Files} {e : TreeEdit} (h : m.edit e = some m')
    (hq : ∀ p ∈ e.writes, ¬ Overlaps (splitPath p) q) : m'.get q = m.get q := by
  cases e with
  | upsert p | copy _ p =>
    simp only [PathMap.edit] at h
    split_ifs at h
    cases h
    exact get_put_of_not_overlap (hq p mem_cons_self)
  | mkdir p =>
    simp only [PathMap.edit] at h
    split_ifs at h
    cases h
    exact if_neg fun h => hq p mem_cons_self (.inr h)
  | delete p =>
    cases h
    exact get_delete_of_not_overlap (hq p mem_cons_self)
  | rename old p =>
    simp only [PathMap.edit] at h
    split_ifs at h
    cases h
    rw [get_put_of_not_overlap (hq p mem_cons_self),
      get_delete_of_not_overlap (hq old (mem_cons_of_mem p mem_cons_self))]

theorem PathMap.edits_frame {m m' : Files} (h : m.edits edits = some m')
    (hq : ∀ p ∈ writtenParts edits, ¬ Overlaps p q) : m'.get q = m.get q := by
  induction edits generalizing m with
  | nil =>
    cases h
    rfl
  | cons e edits ih =>
    obtain ⟨m₁, hm₁, hrest⟩ := bind_eq_some_iff.mp h
    rw [writtenParts_cons] at hq
    rw [ih hrest fun p hp => hq p (mem_append_right _ hp)]
    exact PathMap.edit_frame hm₁ fun p hp => hq _ (mem_append_left _ (mem_map_of_mem hp))

end GitSlice
