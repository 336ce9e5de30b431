import GitSlice.LazyFS.Layer

/-! # The operations of a workspace
Each operation checks the merged view and then makes a `Plan`: a content file to write first, a
batch of entries to commit, the content files that are garbage afterwards, and an in-place write.
The journal is written between the first two (`Journal`); here plans are carried out without
failing. -/

namespace GitSlice.LazyFS

/-- What an operation is going to do once its checks have passed. -/
structure Plan where
  /-- The content of a new local file, which gets the next name. -/
  create : Option Bytes := none
  /-- The batch for `commitLocked`; no entry deletes a path. -/
  set : List (Path × Option LocalEntry) := []
  /-- The local files to delete afterwards. -/
  garbage : List Nat := []
  /-- A write to a local file in place. -/
  edit : Option (Nat × (Bytes → Bytes)) := none
  /-- The error to return when all that is done. -/
  failure : Option FSError := none

namespace FS

variable (s : FS)

/-- `writeLocalLocked`. -/
def writeLocal : Option Bytes → FS
  | none => s
  | some data => { s with files := s.files.set s.nextName data, nextName := s.nextName + 1 }

/-- The part of `commitLocked` that changes the layer in memory. -/
def setEntries (set : List (Path × Option LocalEntry)) : FS :=
  { s with entries := s.entries.writeAll set }

/-- The content files are removed. -/
def deleteLocal (names : List Nat) : FS := { s with files := names.foldl Table.erase s.files }

/-- An in-place write to a local file. -/
def editLocal : Option (Nat × (Bytes → Bytes)) → FS
  | none => s
  | some (name, write) =>
    { s with files := s.files.update fun k data => if k = name then write data else data }

/-- Carry out a plan. -/
def perform (plan : Plan) : FS :=
  (((s.writeLocal plan.create).setEntries plan.set).deleteLocal plan.garbage).editLocal plan.edit

/-- A new local file in place of what is at a path, with the local file it replaces. -/
def replacePlan (p : Path) (data : Bytes) (mode : Nat) (old : Option Nat) : Plan :=
  { create := some data, set := [(p, some (.file mode s.nextName))], garbage := old.toList }

/-- `WriteFile`. -/
def writeFile (p : Path) (data : Bytes) (mode : Nat) : Except FSError Plan := do
  s.resolveParent "write" p
  let existing := s.lookup p
  match existing.map ViewNode.kind with
  | some .dir => .error (.path "write" p .isDir)
  | some .symlink => .error (.path "write" p .invalid)
  | _ =>
    let mode := if mode = 0 then (existing.map ViewNode.mode).getD modeFile else mode
    .ok (s.replacePlan p data (normalizeFileMode mode) (existing.bind ViewNode.file))

/-- `OpenWritable`, and an in-place write to the file it returns. Nothing runs between the two parts
that hold the lock, so that the second look at the path finds what the first one found. -/
def openWritable (c : Content) (p : Path) (truncate : Bool) (write : Bytes → Bytes) :
    Except FSError Plan := do
  let n ← s.resolve "open" p
  match n.kind with
  | .dir => .error (.path "open" p .isDir)
  | .symlink => .error (.path "open" p .invalid)
  | .file =>
    match n.file with
    | some name =>
      .ok { edit := some (name, fun data => write (if truncate then [] else data)) }
    | none =>
      .ok { create := some (if truncate then [] else c.fetch n.hash),
            set := [(p, some (.file n.mode s.nextName))],
            edit := some (s.nextName, write) }

/-- The content `os.Truncate` leaves. -/
def resize (size : Nat) (data : Bytes) : Bytes :=
  data.take size ++ List.replicate (size - data.length) 0

/-- `Truncate`. A negative size is refused only when the file is there to be truncated. -/
def truncate (c : Content) (p : Path) (size : Int) : Except FSError Plan := do
  let plan ← s.openWritable c p (size = 0) fun data => if size < 0 then data else resize size.toNat data
  .ok { plan with failure := if size < 0 then some (.system .invalid) else none }

/-- `Mkdir`. -/
def mkdir (p : Path) : Except FSError Plan := do
  s.resolveParent "mkdir" p
  if (s.lookup p).isSome then .error (.path "mkdir" p .exist)
  else
    let isOpaque := (s.base.lookup p).any fun e => e.kind = .dir
    .ok { set := [(p, some (.dir isOpaque))] }

/-- `Symlink`. -/
def symlink (target : String) (p : Path) : Except FSError Plan := do
  s.resolveParent "symlink" p
  if (s.lookup p).isSome then .error (.path "symlink" p .exist)
  else .ok { set := [(p, some (.symlink target))] }

/-- `Chmod`. -/
def chmod (p : Path) (mode : Nat) : Except FSError Plan := do
  let n ← s.resolve "chmod" p
  let mode := normalizeFileMode mode
  if n.kind ≠ .file ∨ mode = n.mode then .ok {}
  else
    match n.file with
    | some name => .ok { set := [(p, some (.file mode name))] }
    | none => .ok { set := [(p, some (.ref mode n.hash n.size))] }

/-- The local files of the entries at and below a path. -/
def localFilesUnder (p : Path) : List Nat :=
  (s.localEntriesUnder p).filterMap fun q =>
    match s.entries.get q with
    | some (.file _ name) => some name
    | _ => none

/-- The batch of `removalLocked`. -/
def removal (p : Path) : List (Path × Option LocalEntry) :=
  (s.localEntriesUnder p).map (fun q => (q, none)) ++
    if (s.base.lookup p).isSome ∧ s.baseVisible p then [(p, some .whiteout)] else []

/-- `Remove`: a directory only when it is empty. -/
def remove (p : Path) : Except FSError Plan :=
  if p = [] then .error (.path "remove" p .invalid)
  else do
    s.resolveParent "remove" p
    match s.lookup p with
    | none => .error (.path "remove" p .notExist)
    | some n =>
      if n.kind = .dir ∧ s.childNames p n ≠ [] then .error (.path "remove" p .notEmpty)
      else .ok { set := s.removal p, garbage := s.localFilesUnder p }

/-- The length of the longest path of the view. -/
def depth : Nat := max s.base.depth ((s.entries.rows.map fun row => row.1.length).foldr max 0)

/-- The entry `Rename` makes of a node. -/
def movedEntry (n : ViewNode) : LocalEntry :=
  match n.kind with
  | .file =>
    match n.file with
    | some name => .file n.mode name
    | none => .ref n.mode n.hash n.size
  | .symlink => .symlink n.target
  | .dir => .dir true

/-- `collect` of `Rename`, for some levels: what is at a path, as entries relative to it. -/
def collect : Nat → Path → Path → ViewNode → List (Path × LocalEntry)
  | 0, rel, _, n => [(rel, movedEntry n)]
  | levels + 1, rel, p, n =>
    (rel, movedEntry n) ::
      if n.kind = .dir then
        (s.childNames p n).flatMap fun name =>
          match s.lookup (p ++ [name]) with
          | none => []
          | some child => collect levels (rel ++ [name]) (p ++ [name]) child
      else []

/-- The local files of the moved entries, which are kept. -/
def keptFiles (moved : List (Path × LocalEntry)) : List Nat :=
  moved.filterMap fun x =>
    match x.2 with
    | .file _ name => some name
    | _ => none

/-- The part of `Rename` after its checks. -/
def renamePlan (old new : Path) (src : ViewNode) : Plan :=
  let moved := s.collect s.depth [] old src
  let kept := keptFiles moved
  { set := (s.localEntriesUnder new).map (fun q => (q, none)) ++ s.removal old ++
      moved.map fun x => (new ++ x.1, some x.2),
    garbage := (s.localFilesUnder new ++ s.localFilesUnder old).filter fun name => name ∉ kept }

/-- What `Rename` finds at its destination, or why it cannot go there. -/
def renameTarget (old new : Path) (src : ViewNode) : Except FSError Unit :=
  match s.lookup new with
  | none => .ok ()
  | some dst =>
    if dst.kind = .dir ∧ src.kind ≠ .dir then .error (.link old new .isDir)
    else if dst.kind ≠ .dir ∧ src.kind = .dir then .error (.link old new .notDir)
    else if dst.kind = .dir ∧ s.childNames new dst ≠ [] then .error (.link old new .notEmpty)
    else .ok ()

/-- The error of the new parent, as `Rename` returns it. -/
def linkError (old new : Path) : FSError → FSError
  | .path _ _ cls => .link old new cls
  | e => e

/-- `Rename`, of a file or a subtree. -/
def rename (old new : Path) : Except FSError Plan :=
  if old = [] ∨ new = [] then .error (.link old new .invalid)
  else do
    s.resolveParent "rename" old
    (s.resolveParent "rename" new).mapError (linkError old new)
    match s.lookup old with
    | none => .error (.link old new .notExist)
    | some src =>
      if old = new then .ok {}
      else if isUnder new old then .error (.link old new .invalid)
      else if isUnder old new then .error (.link old new .notEmpty)
      else do
        s.renameTarget old new src
        .ok (s.renamePlan old new src)

/-- The nearest directory above a path that is deleted or replaced: the loop of `Restore`. -/
def hiddenBy (entries : Table Path LocalEntry) : List String → Option Path
  | [] => none
  | name :: above =>
    match entries.get (name :: above).reverse with
    | none => hiddenBy entries above
    | some (.dir false) => hiddenBy entries above
    | some _ => some (name :: above).reverse

/-- `Restore`: the path shows the base again. -/
def restore (p : Path) : Except FSError Plan :=
  match hiddenBy s.entries p.dropLast.reverse with
  | some dir => .error (.restoreInstead p dir)
  | none => .ok { set := (s.localEntriesUnder p).map fun q => (q, none), garbage := s.localFilesUnder p }

end FS

/-- The operations on paths. -/
inductive Op where
  | writeFile (p : Path) (data : Bytes) (mode : Nat)
  /-- `OpenWritable` with a write to the file. -/
  | openWritable (p : Path) (truncate : Bool) (write : Bytes → Bytes)
  | truncate (p : Path) (size : Int)
  | mkdir (p : Path)
  | symlink (target : String) (p : Path)
  | chmod (p : Path) (mode : Nat)
  | remove (p : Path)
  | rename (old new : Path)

/-- The plan of an operation, or its error. -/
def FS.plan (c : Content) (s : FS) : Op → Except FSError Plan
  | .writeFile p data mode => s.writeFile p data mode
  | .openWritable p truncate write => s.openWritable c p truncate write
  | .truncate p size => s.truncate c p size
  | .mkdir p => s.mkdir p
  | .symlink target p => s.symlink target p
  | .chmod p mode => s.chmod p mode
  | .remove p => s.remove p
  | .rename old new => s.rename old new

/-- An operation: the workspace afterwards and the error, if there is one. -/
def FS.exec (c : Content) (s : FS) (op : Op) : FS × Option FSError :=
  match s.plan c op with
  | .error e => (s, some e)
  | .ok plan => (s.perform plan, plan.failure)

/-- `Open` in an empty directory. -/
def FS.create (base : Manifest) : FS := ⟨base, .empty, .empty, 0⟩

end GitSlice.LazyFS
