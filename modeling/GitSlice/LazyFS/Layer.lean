import GitSlice.Diff.Lines
import GitSlice.LazyFS.Manifest

/-! # The local layer
The state of a workspace: the base, the entries of the local layer and the content files they name.
The layers are merged when a path is looked up: a local entry stands for itself, and the base shows
where nothing above it hides it. The index `children` of the source is computed from the entries.
Local content files have random names there; here they are numbered. -/

namespace GitSlice.LazyFS

/-- `localEntry`, one constructor for each `entryKind` with the fields it uses. -/
inductive LocalEntry where
  /-- `entryFile`: the content is in a local file. -/
  | file (mode : Nat) (name : Nat)
  /-- `entryRef`: the content is known by its hash. -/
  | ref (mode : Nat) (hash : String) (size : Nat)
  /-- `entryDir`; an opaque one hides the base directory at its path. -/
  | dir (isOpaque : Bool)
  /-- `entrySymlink`. -/
  | symlink (target : String)
  /-- `entryWhiteout`: hides the base path. -/
  | whiteout
deriving DecidableEq

/-- `Content`: contents by their hashes. -/
structure Content where
  /-- `Open`. -/
  fetch : String → Bytes
  /-- `HashFile` and `HashBytes`. -/
  hash : Bytes → String

/-- `FS`: the base, the local layer and the directory with its content files. -/
structure FS where
  base : Manifest
  entries : Table Path LocalEntry
  /-- The files of the layer's directory, by their names. -/
  files : Table Nat Bytes
  /-- The name of the next local file. -/
  nextName : Nat

/-- `node`: a path in the merged view. -/
structure ViewNode where
  kind : Kind
  mode : Nat
  size : Nat := 0
  /-- `hash`, of base files and symlinks and of references. -/
  hash : String := ""
  /-- `local`. -/
  file : Option Nat := none
  /-- `target`, of symlinks. -/
  target : String := ""
  /-- `base`: the base layer shows through. -/
  base : Bool := false
  /-- `opaque`. -/
  isOpaque : Bool := false
deriving DecidableEq

/-- The classes of errors: those of `io/fs` and `lazyfs`, and `EBUSY`. -/
inductive ErrClass where
  /-- `fs.ErrNotExist`. -/
  | notExist
  /-- `fs.ErrExist`. -/
  | exist
  /-- `fs.ErrInvalid`. -/
  | invalid
  /-- `ErrNotDir`. -/
  | notDir
  /-- `ErrIsDir`. -/
  | isDir
  /-- `ErrNotEmpty`. -/
  | notEmpty
  /-- A path the system itself holds. -/
  | busy
deriving DecidableEq

/-- The errors of an operation. -/
inductive FSError where
  /-- `fs.PathError`. -/
  | path (op : String) (p : Path) (cls : ErrClass)
  /-- `os.LinkError`. -/
  | link (old new : Path) (cls : ErrClass)
  /-- The error of `Restore` that names the directory to restore instead. -/
  | restoreInstead (p dir : Path)
  /-- A call on a local content file failed. -/
  | system (cls : ErrClass)
  /-- `ErrChanged`. -/
  | changed
  /-- The error of a `MergeFunc`. -/
  | merge (text : String)
deriving DecidableEq

/-- The class of an error. -/
def FSError.cls : FSError → Option ErrClass
  | .path _ _ cls => some cls
  | .link _ _ cls => some cls
  | .restoreInstead _ _ => some .invalid
  | .system cls => some cls
  | .changed => none
  | .merge _ => none

namespace FS

variable (s : FS)

/-- The loop of `baseVisibleLocked`, along the reversed path of a directory. -/
def visibleAbove (entries : Table Path LocalEntry) : List String → Bool
  | [] => true
  | name :: above =>
    match entries.get (name :: above).reverse with
    | none => visibleAbove entries above
    | some (.dir false) => visibleAbove entries above
    | some _ => false

/-- `baseVisibleLocked`. -/
def baseVisible (p : Path) : Bool := visibleAbove s.entries p.dropLast.reverse

/-- The node of a base entry. -/
def baseNode (e : BaseEntry) : ViewNode :=
  { kind := e.kind, mode := e.mode, size := e.size, hash := e.contentHash, target := e.target, base := true }

/-- The node of a local entry, if it is not a whiteout. -/
def localNode : LocalEntry → Option ViewNode
  | .whiteout => none
  | .file mode name =>
    some { kind := .file, mode := mode, size := ((s.files.get name).map List.length).getD 0,
           file := some name }
  | .ref mode hash size => some { kind := .file, mode := mode, size := size, hash := hash }
  | .dir isOpaque => some { kind := .dir, mode := modeDir, isOpaque := isOpaque }
  | .symlink target =>
    some { kind := .symlink, mode := modeSymlink, size := (utf8 target).length, target := target }

/-- `lookupLocked`. -/
def lookup (p : Path) : Option ViewNode :=
  if p = [] then some { kind := .dir, mode := modeDir }
  else
    match s.entries.get p with
    | some e => s.localNode e
    | none => if s.baseVisible p then (s.base.lookup p).map baseNode else none

/-- `childNamesLocked`. -/
def childNames (p : Path) (n : ViewNode) : List String :=
  let fromBase := match s.base.lookup p with
    | some e =>
      if e.kind = .dir ∧ ¬ n.isOpaque ∧ (n.base ∨ s.baseVisible (p ++ ["x"])) then s.base.children p else []
    | none => []
  let fromLayer := s.entries.rows.filterMap fun row => Manifest.childName p row.1
  (((fromBase ++ fromLayer).dedup).filter fun name => (s.lookup (p ++ [name])).isSome).insertionSort (· ≤ ·)

/-- The loop of `resolveParentLocked`: from the root down. -/
def resolveAlong (op : String) (p done : Path) : List String → Except FSError Unit
  | [] => .ok ()
  | name :: rest =>
    match s.lookup (done ++ [name]) with
    | none => .error (.path op p .notExist)
    | some n =>
      if n.kind = .dir then resolveAlong op p (done ++ [name]) rest
      else .error (.path op p .notDir)

/-- `resolveParentLocked`. -/
def resolveParent (op : String) (p : Path) : Except FSError Unit :=
  if p = [] then .error (.path op p .invalid) else s.resolveAlong op p [] p.dropLast

/-- `resolveLocked`. -/
def resolve (op : String) (p : Path) : Except FSError ViewNode :=
  if p = [] then .ok { kind := .dir, mode := modeDir }
  else do
    s.resolveParent op p
    match s.lookup p with
    | none => .error (.path op p .notExist)
    | some n => .ok n

/-- `localEntriesUnderLocked`. -/
def localEntriesUnder (p : Path) : List Path :=
  ((s.entries.rows.map Prod.fst).filter (contains p)).insertionSort fun q r => renderPath q ≤ renderPath r

/-! ## Reading -/

/-- `Attr`, without what only an adapter of the file system reads. -/
structure Attr where
  kind : Kind
  mode : Nat
  size : Nat
  contentHash : String
  target : String
  /-- `LocalPath`. -/
  file : Option Nat
deriving DecidableEq

/-- What `Stat` shows of a node. -/
def attr (n : ViewNode) : Attr := ⟨n.kind, n.mode, n.size, n.hash, n.target, n.file⟩

/-- `Stat`. -/
def stat (p : Path) : Except FSError Attr := (s.resolve "stat" p).map attr

/-- `ReadDir`. -/
def readDir (p : Path) : Except FSError (List (String × Attr)) := do
  let n ← s.resolve "readdir" p
  if n.kind ≠ .dir then .error (.path "readdir" p .notDir)
  else .ok ((s.childNames p n).filterMap fun name =>
    (s.lookup (p ++ [name])).map fun child => (name, attr child))

/-- `ReadFile`. -/
def readFile (c : Content) (p : Path) : Except FSError Bytes := do
  let n ← s.resolve "open" p
  match n.kind with
  | .dir => .error (.path "open" p .isDir)
  | .symlink => .error (.path "open" p .invalid)
  | .file =>
    match n.file with
    | none => .ok (c.fetch n.hash)
    | some name =>
      match s.files.get name with
      | none => .error (.system .notExist)
      | some data => .ok data

end FS

end GitSlice.LazyFS
