import Mathlib
import GitSlice.LazyFS.Ops

/-! # Edits, and moving to another base
The edits of a workspace are its differences from the base, file by file (`FS.edits`). `Rebase`
carries them over to a new base, asking a merge function about the paths both sides changed, and
`Switch` replaces them by those of a changeset; both make a new local layer (`replaceLayer`) whose
entries lie in directories (`addParentDirs`). -/

namespace GitSlice.LazyFS

/-- What an edit does: `Op` with the fields of an upsert. -/
inductive Change where
  /-- `upsert`: the content hash, the mode, and the local file with the content. -/
  | upsert (contentHash : String) (mode : Nat) (file : Option Nat)
  | delete
deriving DecidableEq

/-- What the user did at a path. -/
structure Edit where
  path : Path
  /-- What is done to the path. -/
  change : Change
deriving DecidableEq

/-- The entry is a directory. -/
def isDirEntry (o : Option BaseEntry) : Bool := o.any fun e => e.kind = .dir

/-- A file or symlink of a base, and nothing for a directory. -/
def fileEntry (o : Option BaseEntry) : Option BaseEntry := o.filter fun e => e.kind ≠ .dir

namespace FS

variable (c : Content) (s : FS)

/-- The paths a local entry makes `editsLocked` look at. -/
def candidatesOf (p : Path) (e : LocalEntry) : List Path :=
  p :: if e = .dir false then []
    else if isDirEntry (s.base.lookup p) then (s.base.filesUnder p).map Prod.fst else []

/-- The candidates of `editsLocked`, sorted. -/
def candidates : List Path :=
  ((s.entries.rows.flatMap fun row => s.candidatesOf row.1 row.2).dedup).insertionSort fun p q =>
    renderPath p ≤ renderPath q

/-- The content hash of a node: `HashBytes` of a target, `hashLocalLocked` of a local file. -/
def nodeHash (n : ViewNode) : Except FSError String :=
  if n.kind = .symlink then .ok (c.hash (utf8 n.target))
  else
    match n.file with
    | some name =>
      match s.files.get name with
      | some data => .ok (c.hash data)
      | none => .error (.system .notExist)
    | none => .ok n.hash

/-- The body of the loop of `editsLocked`. -/
def editAt (p : Path) : Except FSError (Option Edit) :=
  let before := fileEntry (s.base.lookup p)
  match (s.lookup p).filter fun n => n.kind ≠ .dir with
  | none => .ok (if before.isSome then some ⟨p, .delete⟩ else none)
  | some n =>
    if n.base then .ok none
    else do
      let hash ← s.nodeHash c n
      if before.any fun b => b.contentHash = hash ∧ b.mode = n.mode then .ok none
      else .ok (some ⟨p, .upsert hash n.mode n.file⟩)

/-- `Edits`: in the order of the paths. -/
def edits : Except FSError (List Edit) := do
  let found ← s.candidates.mapM (s.editAt c)
  .ok found.reduceOption

/-! ## The new layer -/

/-- The body of the inner loop of `addParentDirs`. -/
def addParent (base : Manifest) (next : Table Path LocalEntry) (dir : Path) :
    Table Path LocalEntry :=
  match next.get dir with
  | some (.dir _) => next
  | none => if isDirEntry (base.lookup dir) then next else next.set dir (.dir false)
  | some _ => next.set dir (.dir false)

/-- The inner loop of `addParentDirs`, along the reversed path of a parent. -/
def addParents (base : Manifest) (next : Table Path LocalEntry) :
    List String → Table Path LocalEntry
  | [] => next
  | name :: above => addParents base (addParent base next (name :: above).reverse) above

/-- The directories above the entries that the base lacks. -/
def addParentDirs (base : Manifest) (next : Table Path LocalEntry) : Table Path LocalEntry :=
  next.rows.foldl
    (fun t row => if row.2 = .whiteout then t else addParents base t row.1.dropLast.reverse) next

/-- The local files of the layer. -/
def localFiles : List Nat :=
  s.entries.rows.filterMap fun row =>
    match row.2 with
    | .file _ name => some name
    | _ => none

/-- `replaceLayerLocked`: a layer over another base, without the local files it does not use. -/
def replaceLayer (newBase : Manifest) (next : Table Path LocalEntry) (used : List Nat)
    (files : Table Nat Bytes) (nextName : Nat) : FS where
  base := newBase
  entries := next
  files := (s.localFiles.filter fun name => name ∉ used).foldl Table.erase files
  nextName := nextName

/-! ## Rebase -/

/-- Equal entries of two bases. -/
def sameBaseEntry : Option BaseEntry → Option BaseEntry → Bool
  | some a, some b =>
    a.kind = b.kind ∧ a.mode = b.mode ∧ a.contentHash = b.contentHash ∧ a.target = b.target
  | none, none => true
  | _, _ => false

/-- The entry is what the edit makes. -/
def editMatches (edit : Edit) (entry : Option BaseEntry) : Bool :=
  match edit.change with
  | .delete => entry.isNone
  | .upsert hash mode _ => entry.any fun e => e.kind ≠ .dir ∧ e.contentHash = hash ∧ e.mode = mode

end FS

/-- What the merge is asked about. -/
structure MergeCase where
  path : Path
  /-- `Base`: the old base. -/
  base : Option BaseEntry
  /-- `Theirs`: the new base. -/
  theirs : Option BaseEntry
  ours : Edit

/-- What is done there. -/
structure MergeResult where
  keep : Bool
  theirs : Bool
  delete : Bool
  content : Bytes
  mode : Nat
  conflict : Bool

/-- The caller's merge. -/
abbrev MergeFunc := MergeCase → Except String MergeResult

/-- How an edit is carried over. -/
inductive Resolution where
  /-- The local change stays. -/
  | ours
  /-- The new base shows. -/
  | theirs
  /-- There is no file. -/
  | delete
  /-- A file with merged content. -/
  | content (data : Bytes) (mode : Nat)
deriving DecidableEq

/-- The inner `switch` of `Rebase`. -/
def MergeResult.resolution (r : MergeResult) : Resolution :=
  if r.keep then .ours
  else if r.theirs then .theirs
  else if r.delete then .delete
  else .content r.content r.mode

namespace FS

variable (c : Content) (s : FS)

/-- The `switch` of `Rebase` over the two sides of an edit, and whether it is a conflict. -/
def resolveEdit (newBase : Manifest) (merge : MergeFunc) (edit : Edit) :
    Except FSError (Resolution × Bool) :=
  let before := fileEntry (s.base.lookup edit.path)
  let after := newBase.lookup edit.path
  if sameBaseEntry before after then .ok (.ours, false)
  else if editMatches edit after then .ok (.theirs, false)
  else
    match merge ⟨edit.path, before, after, edit⟩ with
    | .error text => .error (.merge text)
    | .ok result => .ok (result.resolution, result.conflict)

/-- `entryForEditLocked`. -/
def entryForEdit (edit : Edit) : LocalEntry :=
  match edit.change with
  | .delete => .whiteout
  | .upsert _ _ _ =>
    match s.lookup edit.path with
    | none => .ref 0 "" 0
    | some n =>
      if n.kind = .symlink then .symlink n.target
      else
        match n.file with
        | some name => .file n.mode name
        | none => .ref n.mode n.hash n.size

/-- The variables of the loop of `Rebase`. -/
structure Rebasing where
  next : Table Path LocalEntry
  /-- `usedLocal`. -/
  used : List Nat
  /-- The local files, with those that were written. -/
  files : Table Nat Bytes
  /-- The name of the next local file. -/
  nextName : Nat
  conflicts : List Path

/-- Give an edit's path its entry; a whiteout only where it hides a file of the new base. -/
def Rebasing.place (r : Rebasing) (newBase : Manifest) (p : Path) (ours : Option LocalEntry) :
    Rebasing :=
  match ours with
  | none => r
  | some .whiteout =>
    match newBase.lookup p with
    | none => r
    | some e => if e.kind = .dir then r else { r with next := r.next.set p .whiteout }
  | some (.file mode name) => { r with next := r.next.set p (.file mode name), used := name :: r.used }
  | some e => { r with next := r.next.set p e }

/-- The body of the first loop of `Rebase`. -/
def rebaseEdit (newBase : Manifest) (merge : MergeFunc) (r : Rebasing) (edit : Edit) :
    Except FSError Rebasing := do
  let (resolution, conflict) ← s.resolveEdit newBase merge edit
  let r := { r with conflicts := r.conflicts ++ if conflict then [edit.path] else [] }
  match resolution with
  | .ours => .ok (r.place newBase edit.path (some (s.entryForEdit edit)))
  | .theirs => .ok (r.place newBase edit.path none)
  | .delete => .ok (r.place newBase edit.path (some .whiteout))
  | .content data mode =>
    let written : Rebasing := { r with
      files := r.files.set r.nextName data, nextName := r.nextName + 1 }
    .ok (written.place newBase edit.path (some (.file (normalizeFileMode mode) r.nextName)))

/-- The second loop of `Rebase`: the user's own directories that the new base does not have. -/
def keepDirs (newBase : Manifest) (next : Table Path LocalEntry) : Table Path LocalEntry :=
  s.entries.rows.foldl (fun next row =>
    match row.2 with
    | .dir _ =>
      if (s.lookup row.1).isSome ∧ ¬ isDirEntry (newBase.lookup row.1) then next.set row.1 (.dir false)
      else next
    | _ => next) next

/-- Nothing shows in a directory of the new base. -/
def wholeDeleted (newBase : Manifest) (next : Table Path LocalEntry) (p : Path) : Bool :=
  (newBase.filesUnder p).all (fun file => next.get file.1 = some .whiteout) &&
    next.rows.all fun row => !isUnder row.1 p || row.2 = .whiteout

/-- The third loop of `Rebase`: a base directory the user deleted stays deleted as a whole. -/
def keepDeleted (newBase : Manifest) (next : Table Path LocalEntry) : Table Path LocalEntry :=
  s.entries.rows.foldl (fun next row =>
    if isDirEntry (s.base.lookup row.1) ∧ (s.lookup row.1).isNone ∧ isDirEntry (newBase.lookup row.1) ∧
        wholeDeleted newBase next row.1 then
      (next.keep fun q => !isUnder q row.1).set row.1 .whiteout
    else next) next

/-- `Rebase`: the workspace on the new base, and the conflicts. -/
def rebase (newBase : Manifest) (merge : MergeFunc) : Except FSError (FS × List Path) := do
  let found ← s.edits c
  let r ← found.foldlM (s.rebaseEdit newBase merge) ⟨.empty, [], s.files, s.nextName, []⟩
  let next := addParentDirs newBase (s.keepDeleted newBase (s.keepDirs newBase r.next))
  .ok (s.replaceLayer newBase next r.used r.files r.nextName,
    r.conflicts.insertionSort fun p q => renderPath p ≤ renderPath q)

/-! ## Switch -/

/-- Equal in paths, hashes and modes. -/
def sameEdits (a b : List Edit) : Bool :=
  let key : Edit → Path × Option (String × Nat) := fun e =>
    (e.path, match e.change with
      | .delete => none
      | .upsert hash mode _ => some (hash, mode))
  a.map key = b.map key

/-- The entry `Switch` makes for a path of the changeset, if it needs one. -/
def switchEntry (base : Option BaseEntry) : Option BaseEntry → Option LocalEntry
  | none => if (fileEntry base).isSome then some .whiteout else none
  | some entry =>
    match entry.kind with
    | .symlink =>
      if base.any fun b => b.kind = .symlink ∧ b.target = entry.target then none
      else some (.symlink entry.target)
    | .file =>
      if base.any fun b => b.kind = .file ∧ b.contentHash = entry.contentHash ∧
          b.mode = normalizeFileMode entry.mode then none
      else some (.ref (normalizeFileMode entry.mode) entry.contentHash entry.size)
    | .dir => none

/-- The entries `Switch` makes for the paths of the changeset. -/
def switchDiff (newBase : Manifest) (diff : Table Path (Option BaseEntry)) :
    Table Path LocalEntry :=
  diff.rows.foldl (fun next row =>
    if row.1 = [] then next
    else
      match switchEntry (newBase.lookup row.1) row.2 with
      | none => next
      | some e => next.set row.1 e) .empty

/-- A local entry that `Switch` leaves alone. -/
def switchKeeps (newBase : Manifest) (diff : Table Path (Option BaseEntry)) (p : Path) :
    Option LocalEntry :=
  match s.entries.get p with
  | none => none
  | some (.dir _) => none
  | some .whiteout => none
  | some e => if (diff.get p).isSome ∨ (newBase.lookup p).isSome then none else some e

/-- `Switch`: a new base with a changeset's diff and the kept paths. -/
def switch (newBase : Manifest) (diff : Table Path (Option BaseEntry)) (keep : List Path)
    (expect : List Edit) : Except FSError FS := do
  let current ← s.edits c
  if ¬ sameEdits current expect then .error .changed
  else
    let kept := keep.filterMap fun p => (s.switchKeeps newBase diff p).map fun e => (p, e)
    let next := kept.foldl (fun next x => next.set x.1 x.2) (switchDiff newBase diff)
    let used := kept.filterMap fun x =>
      match x.2 with
      | .file _ name => some name
      | _ => none
    .ok (s.replaceLayer newBase (addParentDirs newBase next) used s.files s.nextName)

end FS

end GitSlice.LazyFS
