import GitSlice.Library.Table
import GitSlice.TreeStore.Listing

/-! # The projected files of a slice
`internal/gitcompat` projects the native history to a Git history for each slice. This module holds
what it computes from the commits and their trees: the paths of a slice a commit may have changed
(`projectionTargets`), the map of the projected files and its changes (`applyListing`), the part of
the native history it reads (`listCommitChain`) and the loop over it (`updateHistory`). Git paths
have no leading slash; as lists of segments they are the native ones. -/

namespace GitSlice

open List Table

/-- `projectedFile`. The Git blob id is a function of the content hash. -/
structure ProjectedFile where
  /-- The Git mode. -/
  mode : String
  contentHash : String
deriving DecidableEq

/-- The files of a projection, by their Git paths. -/
abbrev FileMap := Table Path ProjectedFile

/-- `fileChange`: a path and its new file, or none for a delete. -/
abbrev FileChange := Path × Option ProjectedFile

/-- `strings.EqualFold(part, ".git")`. -/
def isDotGit (part : String) : Bool :=
  part.toList.map (fun c => if 'A' ≤ c ∧ c ≤ 'Z' then Char.ofNat (c.toNat + 32) else c) = ".git".toList

/-- Git can hold the path. -/
def projectablePath (p : Path) : Bool :=
  p ≠ [] ∧ ∀ part ∈ p, part ≠ "" ∧ part ≠ "." ∧ part ≠ ".." ∧ isDotGit part = false

/-- The mode of a file in Git. -/
def gitFileMode (mode : Nat) : String :=
  if mode &&& 0o170000 = 0o120000 then "120000"
  else if mode &&& 0o111 ≠ 0 then "100755"
  else "100644"

/-- A file of the native tree as it is projected. -/
def FileEntry.projected (f : FileEntry) : ProjectedFile := ⟨gitFileMode f.mode, f.contentHash⟩

/-- The targets of `projectionTargets` before nested ones are dropped. -/
def targetSet (changed prefixes : List Path) : List Path :=
  changed.flatMap fun p => prefixes.filterMap fun base =>
    if contains base p then some p else if contains p base then some base else none

/-- The targets that lie under no other one. -/
def projectionTargets (changed prefixes : List Path) : List Path :=
  let set := (targetSet changed prefixes).dedup
  (set.filter fun target => !set.any fun other => other ≠ target &&
    contains other target).insertionSort
    fun p q => renderPath p ≤ renderPath q

/-- The loop of `applyListing` over the targets: first every file under the target is to be deleted,
then every listed file is to be written. -/
def nextChanges (files : FileMap) (listing : Path → List (Path × FileEntry))
    (next : Table Path (Option ProjectedFile)) (target : Path) :
    Table Path (Option ProjectedFile) :=
  let next := next.setIf (fun row => contains target row.1) Prod.fst (fun _ => none) files.rows
  next.setIf (fun file => projectablePath file.1) Prod.fst (fun file => some file.2.projected)
    (listing target)

/-- The test of `applyListing` for a change that changes something. -/
def isChange (files : FileMap) (change : FileChange) : Bool :=
  match change.2 with
  | none => (files.get change.1).isSome
  | some file => files.get change.1 ≠ some file

/-- The changes of `applyListing` before they are sorted. -/
def listingChanges (files : FileMap) (targets : List Path)
    (listing : Path → List (Path × FileEntry)) : List FileChange :=
  (targets.foldl (nextChanges files listing) .empty).rows.filter (isChange files)

/-- `applyListing`: the files after the changes, and the changes sorted by path. -/
def applyListing (files : FileMap) (targets : List Path)
    (listing : Path → List (Path × FileEntry)) :
    FileMap × List FileChange :=
  (files.writeAll (listingChanges files targets listing),
    sortByPath (listingChanges files targets listing))

/-- A commit of the native history. -/
structure NativeCommit where
  id : String
  /-- The root tree. -/
  tree : Node
  /-- `changed_paths`. -/
  changedPaths : List Path

/-- `ListFiles` at a commit: the tree store splits the path it is given. -/
def treeListing (tree : Node) (target : Path) : List (Path × FileEntry) :=
  tree.listFiles (splitPath target)

/-- `commitTouchesPrefixes`, and the same test in the query of `ListCommitChain`. A changed path
that is the root is not above a prefix for it: it looks for the string `//` in front. -/
def commitTouchesPrefixes (prefixes : List Path) (commit : NativeCommit) : Bool :=
  commit.changedPaths.any fun p => prefixes.any fun base =>
    base = [] || contains base p || (p ≠ [] && contains p base)

/-- `ListCommitChain`: the commits after the given one, oldest first, that touch a prefix, and
whether the given one was found. The first-parent chain of the ref is `history`, oldest first. -/
def listCommitChain (prefixes : List Path) (history : List NativeCommit) (stop : Option String) :
    List NativeCommit × Bool :=
  match stop with
  | none => (history.filter (commitTouchesPrefixes prefixes), false)
  | some id =>
    if history.any fun c => c.id = id then
      ((history.dropWhile fun c => c.id ≠ id).tail.filter (commitTouchesPrefixes prefixes), true)
    else (history.filter (commitTouchesPrefixes prefixes), false)

/-- `projectionState`: the native commit the projection is at, its files, and the native commits it
has made Git commits for. -/
structure ProjectionState where
  /-- `NativeHeadID`. -/
  nativeHead : Option String
  files : FileMap
  /-- The native ids of `Commits`. -/
  commits : List String

/-- `newProjectionState`. -/
def ProjectionState.fresh : ProjectionState := ⟨none, .empty, []⟩

/-- The loop of `appendHistory`: the commits that change a file, each with its changes. -/
def pendingCommits (prefixes : List Path) : FileMap → List NativeCommit →
    List (NativeCommit × List FileChange)
  | _, [] => []
  | files, commit :: rest =>
    let applied := applyListing files (projectionTargets commit.changedPaths prefixes)
      (treeListing commit.tree)
    if applied.2 = [] then pendingCommits prefixes applied.1 rest
    else (commit, applied.2) :: pendingCommits prefixes applied.1 rest

/-- The checkpoint of `appendLazy` after one more commit. -/
def ProjectionState.record (state : ProjectionState) (pending : NativeCommit × List FileChange) :
    ProjectionState where
  nativeHead := some pending.1.id
  files := state.files.writeAll pending.2
  commits := state.commits ++ [pending.1.id]

/-- `updateHistory` over the history the ref has at the time. It may be interrupted after some of
the pending commits were recorded. -/
def updateHistory (prefixes : List Path) (history : List NativeCommit) (recorded : Option Nat)
    (state : ProjectionState) : ProjectionState :=
  let found := (listCommitChain prefixes history state.nativeHead).2
  let state := if state.nativeHead.isSome && !found then .fresh else state
  let pending := pendingCommits prefixes state.files
    (listCommitChain prefixes history state.nativeHead).1
  match history.getLast? with
  | none => state
  | some head =>
    if some head.id = state.nativeHead then state
    else
      match recorded with
      | none => { pending.foldl .record state with nativeHead := some head.id }
      | some k => (pending.take k).foldl .record state

/-! ## What a listing changes -/

variable {files : FileMap}

theorem isChange_iff {change : FileChange} :
    isChange files change = true ↔ files.get change.1 ≠ change.2 := by
  obtain ⟨p, c⟩ := change
  cases c with
  | none => simp [isChange, Option.isSome_iff_ne_none]
  | some file => simp [isChange]

theorem nodup_listingChanges (files : FileMap) (targets : List Path)
    (listing : Path → List (Path × FileEntry)) :
    ((listingChanges files targets listing).map Prod.fst).Nodup :=
  (Table.nodup _).sublist (filter_sublist.map Prod.fst)

theorem applyListing_changes (files : FileMap) (targets : List Path)
    (listing : Path → List (Path × FileEntry)) (p : Path) (c : Option ProjectedFile) :
    (p, c) ∈ (applyListing files targets listing).2 ↔
      (applyListing files targets listing).1.get p = c ∧ files.get p ≠ c := by
  have hperm := perm_sortByPath (listingChanges files targets listing)
  have hnodup := nodup_listingChanges files targets listing
  rw [applyListing, hperm.mem_iff]
  constructor
  · intro hmem
    refine ⟨get_writeAll_of_mem files hnodup hmem, ?_⟩
    exact isChange_iff.mp (mem_filter.mp hmem).2
  · rintro ⟨hget, hne⟩
    by_cases hp : p ∈ (listingChanges files targets listing).map Prod.fst
    · obtain ⟨⟨q, c'⟩, hmem, rfl⟩ := mem_map.mp hp
      rw [get_writeAll_of_mem files hnodup hmem] at hget
      rw [← hget]
      exact hmem
    · rw [get_writeAll_of_notMem files hp] at hget
      exact absurd hget hne

variable {listing : Path → List (Path × FileEntry)} {targets : List Path}

theorem applyListing_eq_nil :
    (applyListing files targets listing).2 = [] ↔
      ∀ p, (applyListing files targets listing).1.get p = files.get p := by
  constructor
  · intro hnil p
    by_contra hne
    have hmem := (applyListing_changes files targets listing p _).mpr ⟨rfl, fun h => hne h.symm⟩
    rw [hnil] at hmem
    cases hmem
  · intro hsame
    rw [eq_nil_iff_forall_not_mem]
    rintro ⟨p, c⟩ hmem
    obtain ⟨hget, hne⟩ := (applyListing_changes files targets listing p c).mp hmem
    rw [hsame] at hget
    exact hne hget

theorem get_writeAll_changes (files : FileMap) (targets : List Path)
    (listing : Path → List (Path × FileEntry)) (p : Path) :
    (files.writeAll (applyListing files targets listing).2).get p =
      (applyListing files targets listing).1.get p := by
  have hchanges := applyListing_changes files targets listing p
  by_cases hsame : files.get p = (applyListing files targets listing).1.get p
  · rw [get_writeAll_of_notMem files, hsame]
    intro hp
    obtain ⟨⟨q, c⟩, hmem, rfl⟩ := mem_map.mp hp
    obtain ⟨hget, hne⟩ := (hchanges c).mp hmem
    exact hne (hsame.trans hget)
  · have hmem := (hchanges _).mpr ⟨rfl, hsame⟩
    exact get_writeAll_of_forall files (mem_map_of_mem hmem) fun c hc => ((hchanges c).mp hc).1.symm

theorem get_applyListing_next (files : FileMap) (targets : List Path)
    (listing : Path → List (Path × FileEntry)) (p : Path) :
    (applyListing files targets listing).1.get p =
      ((targets.foldl (nextChanges files listing) .empty).get p).getD (files.get p) := by
  have hnodup := nodup_listingChanges files targets listing
  rw [applyListing]
  by_cases hp : p ∈ (listingChanges files targets listing).map Prod.fst
  · obtain ⟨⟨q, c⟩, hmem, rfl⟩ := mem_map.mp hp
    rw [get_writeAll_of_mem files hnodup hmem,
      (mem_rows_iff _ q c).mp (mem_filter.mp hmem).1]
    rfl
  · rw [get_writeAll_of_notMem files hp]
    cases hnext : (targets.foldl (nextChanges files listing) .empty).get p with
    | none => rfl
    | some c =>
      -- a request that is no change asks for what is there
      have hsame : ¬ isChange files (p, c) = true := fun hchange =>
        hp (mem_map.mpr ⟨(p, c),
          mem_filter.mpr ⟨(mem_rows_iff _ p c).mpr hnext, hchange⟩, rfl⟩)
      rw [isChange_iff, not_not] at hsame
      exact hsame

variable {tree : Node}

/-- A file after a listing was there before, or is in the listing of a target. -/
theorem of_get_applyListing
    (hlisting : ∀ target ∈ targets, ∀ p f, (p, f) ∈ listing target → tree.fileAt p = some f)
    {p : Path} {file : ProjectedFile}
    (h : (applyListing files targets listing).1.get p = some file) :
    files.get p = some file ∨ (tree.fileAt p).map FileEntry.projected = some file := by
  have hnext : ∀ (ts : List Path) (next : Table Path (Option ProjectedFile)), ts ⊆ targets →
      (∀ g, next.get p = some (some g) → (tree.fileAt p).map FileEntry.projected = some g) →
      ∀ g, (ts.foldl (nextChanges files listing) next).get p = some (some g) →
        (tree.fileAt p).map FileEntry.projected = some g := by
    intro ts
    induction ts with
    | nil => exact fun _ _ h => h
    | cons t ts ih =>
      intro next hts hnext
      obtain ⟨ht, hts⟩ := cons_subset.mp hts
      refine ih _ hts fun g hg => ?_
      rw [nextChanges] at hg
      by_cases hlisted : ∃ f, (p, f) ∈ listing t ∧ projectablePath p = true
      · obtain ⟨f, hf, hproj⟩ := hlisted
        have hfile := hlisting t ht p f hf
        rw [get_setIf_of_exists _ _ _ _ ⟨(p, f), hf, hproj, rfl⟩] at hg
        · rw [hfile]
          exact Option.some.inj hg
        · rintro ⟨q, f'⟩ hmem - rfl
          rw [Option.some.inj (hfile.symm.trans (hlisting t ht q f' hmem))]
          rfl
      · rw [get_setIf_of_forall] at hg
        · by_cases hgone : ∃ row ∈ files.rows, contains t row.1 = true ∧ row.1 = p
          · obtain ⟨row, hrow, hin, rfl⟩ := hgone
            rw [get_setIf_of_exists _ _ _ _ ⟨row, hrow, hin, rfl⟩ fun _ _ _ _ => rfl] at hg
            cases hg
          · rw [get_setIf_of_forall _ _ _ _ fun row hrow hin heq => hgone ⟨row, hrow, hin, heq⟩] at hg
            exact hnext g hg
        · rintro ⟨q, f⟩ hmem hproj rfl
          exact hlisted ⟨f, hmem, hproj⟩
  rw [get_applyListing_next] at h
  cases hget : (targets.foldl (nextChanges files listing) .empty).get p with
  | none =>
    rw [hget] at h
    exact .inl h
  | some c =>
    rw [hget] at h
    have hc : c = some file := h
    exact .inr (hnext targets .empty (Subset.refl _) (fun _ h => nomatch h) file (hc ▸ hget))

theorem get_nextChanges {target : Path}
    (hlisting : ∀ p f, (p, f) ∈ listing target ↔ tree.fileAt p = some f ∧ target <+: p)
    (next : Table Path (Option ProjectedFile)) (p : Path) :
    (nextChanges files listing next target).get p =
      if target <+: p then
        if projectablePath p ∧ (tree.fileAt p).isSome then
          some ((tree.fileAt p).map FileEntry.projected)
        else if (files.get p).isSome then some none
        else next.get p
      else next.get p := by
  have hdeleted : (next.setIf (fun row => contains target row.1) Prod.fst (fun _ => none)
      files.rows).get p =
      if target <+: p ∧ (files.get p).isSome then some none else next.get p := by
    split_ifs with h
    · obtain ⟨hunder, hsome⟩ := h
      obtain ⟨f, hf⟩ := Option.isSome_iff_exists.mp hsome
      exact get_setIf_of_exists _ _ _ next
        ⟨(p, f), (files.mem_rows_iff p f).mpr hf, contains_iff.mpr hunder, rfl⟩ fun _ _ _ _ => rfl
    · refine get_setIf_of_forall _ _ _ next ?_
      rintro ⟨q, f⟩ hmem hunder rfl
      exact h ⟨contains_iff.mp hunder, by rw [(files.mem_rows_iff q f).mp hmem]; rfl⟩
  rw [nextChanges]
  by_cases hfile : target <+: p ∧ projectablePath p = true ∧ (tree.fileAt p).isSome = true
  · obtain ⟨hunder, hproj, hsome⟩ := hfile
    obtain ⟨f, hf⟩ := Option.isSome_iff_exists.mp hsome
    rw [if_pos hunder, if_pos ⟨hproj, hsome⟩, hf]
    refine get_setIf_of_exists _ _ _ _ ⟨(p, f), (hlisting p f).mpr ⟨hf, hunder⟩, hproj, rfl⟩ ?_
    rintro ⟨q, f'⟩ hmem - rfl
    have hf' := ((hlisting q f').mp hmem).1
    rw [hf] at hf'
    rw [Option.some.inj hf']
    rfl
  · rw [get_setIf_of_forall, hdeleted]
    · by_cases hunder : target <+: p
      · have hnot : ¬ (projectablePath p = true ∧ (tree.fileAt p).isSome = true) := fun h =>
          hfile ⟨hunder, h⟩
        simp [hunder, hnot]
      · simp [hunder]
    · rintro ⟨q, f⟩ hmem hproj rfl
      obtain ⟨hf, hunder⟩ := (hlisting q f).mp hmem
      exact hfile ⟨hunder, hproj, by rw [hf]; rfl⟩

/-- All targets: a path under one of them is to be what the tree has there, another one stays. -/
theorem get_applyListing (hlisting : ∀ target ∈ targets, ∀ p f,
      (p, f) ∈ listing target ↔ tree.fileAt p = some f ∧ target <+: p) (p : Path) :
    (applyListing files targets listing).1.get p =
      if ∃ target ∈ targets, target <+: p then
        if projectablePath p then (tree.fileAt p).map FileEntry.projected else none
      else files.get p := by
  -- what the loop over the targets has for the path
  have hnext : ∀ (ts : List Path) (next : Table Path (Option ProjectedFile)),
      (∀ t ∈ ts, t ∈ targets) →
      (ts.foldl (nextChanges files listing) next).get p =
        if ∃ t ∈ ts, t <+: p then
          if projectablePath p ∧ (tree.fileAt p).isSome then
            some ((tree.fileAt p).map FileEntry.projected)
          else if (files.get p).isSome then some none
          else next.get p
        else next.get p := by
    intro ts
    induction ts with
    | nil => intro next _; simp
    | cons t ts ih =>
      intro next hts
      rw [forall_mem_cons] at hts
      rw [foldl_cons, ih _ hts.2, get_nextChanges (hlisting t hts.1)]
      by_cases ht : t <+: p <;> by_cases hrest : ∃ t ∈ ts, t <+: p <;>
        by_cases hfile : projectablePath p = true ∧ (tree.fileAt p).isSome = true <;>
          by_cases hold : (files.get p).isSome = true <;> simp [ht, hfile, hold]
  rw [get_applyListing_next, hnext targets .empty fun t ht => ht]
  by_cases hunder : ∃ t ∈ targets, t <+: p
  · by_cases hproj : projectablePath p = true
    · cases hfile : tree.fileAt p with
      | some f => simp [hunder, hproj]
      | none => cases hold : files.get p <;> simp [hunder]
    · cases hold : files.get p <;> simp [hunder, hproj]
  · simp [hunder]

end GitSlice
