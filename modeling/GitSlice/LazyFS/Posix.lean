import GitSlice.Library.Machine
import GitSlice.LazyFS.View

/-! # A plain file system
What a workspace is meant to look like: an ordinary tree of files, directories and symlinks under
the rules of POSIX, where each operation either fails with an error and changes nothing, or changes
the path it names. Symlinks are never followed, as in `lazyfs`; modes are what the native model
records. -/

namespace GitSlice.LazyFS

/-- What each path holds. -/
abbrev Tree := Path → Option Obj

namespace Tree

variable (t : Tree)

/-- The content of a base. -/
def ofBase (c : Content) (m : Manifest) : Tree := fun p => (m.lookup p).map (baseObj c)

/-- Resolve a path, from a directory down: `ENOENT` for a missing component, `ENOTDIR` for one that
is no directory. -/
def walk (t : Tree) (done : Path) : List String → Except ErrClass Unit
  | [] => .ok ()
  | name :: rest =>
    match t (done ++ [name]) with
    | none => .error .notExist
    | some o => if o = .dir then walk t (done ++ [name]) rest else .error .notDir

/-- Resolve the directory of a path. -/
def parent (p : Path) : Except ErrClass Unit := t.walk [] p.dropLast

/-- Resolve a path to what it holds. -/
def find (p : Path) : Except ErrClass Obj :=
  if p = [] then .ok .dir
  else do
    t.parent p
    match t p with
    | none => .error .notExist
    | some o => .ok o

/-- A directory without names. -/
def Empty (p : Path) : Prop := ∀ name, t (p ++ [name]) = none

/-- Move a subtree. -/
def move (old new : Path) : Tree := fun q =>
  if new.isPrefixOf q then t (old ++ q.drop new.length)
  else if old.isPrefixOf q then none
  else t q

/-- `open(O_CREAT | O_TRUNC)` and a write. Mode 0 keeps the mode of a file that is there. -/
def writeFile (p : Path) (data : Bytes) (mode : Nat) : Except ErrClass Tree :=
  if p = [] then .error .isDir
  else do
    t.parent p
    match t p with
    | some .dir => .error .isDir
    | some (.symlink _) => .error .invalid
    | some (.file old _) =>
      .ok (Function.update t p (some (.file (if mode = 0 then old else normalizeFileMode mode) data)))
    | none =>
      .ok (Function.update t p
        (some (.file (if mode = 0 then modeFile else normalizeFileMode mode) data)))

/-- Rewrite the content of a file that is there. -/
def rewrite (p : Path) (write : Bytes → Except ErrClass Bytes) : Except ErrClass Tree := do
  match ← t.find p with
  | .dir => .error .isDir
  | .symlink _ => .error .invalid
  | .file mode data =>
    let data' ← write data
    .ok (Function.update t p (some (.file mode data')))

/-- `mkdir` and `symlink`: make something where nothing is. -/
def make (p : Path) (o : Obj) : Except ErrClass Tree :=
  if p = [] then .error .exist
  else do
    t.parent p
    match t p with
    | some _ => .error .exist
    | none => .ok (Function.update t p (some o))

/-- `chmod`; only files have a mode. -/
def chmod (p : Path) (mode : Nat) : Except ErrClass Tree := do
  match ← t.find p with
  | .file _ data => .ok (Function.update t p (some (.file (normalizeFileMode mode) data)))
  | _ => .ok t

open Classical in
/-- `unlink` and `rmdir`. -/
noncomputable def remove (p : Path) : Except ErrClass Tree :=
  if p = [] then .error .busy
  else do
    t.parent p
    match t p with
    | none => .error .notExist
    | some o => if o = .dir ∧ ¬ t.Empty p then .error .notEmpty else .ok (Function.update t p none)

open Classical in
/-- What `rename` finds at its destination, or why it cannot go there. -/
noncomputable def renameTarget (new : Path) (src : Obj) : Except ErrClass Unit :=
  match t new with
  | none => .ok ()
  | some dst =>
    if dst = .dir ∧ src ≠ .dir then .error .isDir
    else if dst ≠ .dir ∧ src = .dir then .error .notDir
    else if dst = .dir ∧ ¬ t.Empty new then .error .notEmpty
    else .ok ()

/-- `rename`: both directories are resolved first; a directory does not move under itself, and
nothing replaces a directory above it. -/
noncomputable def rename (old new : Path) : Except ErrClass Tree :=
  if old = [] ∨ new = [] then .error .busy
  else do
    t.parent old
    t.parent new
    match t old with
    | none => .error .notExist
    | some src =>
      if old = new then .ok t
      else if old.isPrefixOf new then .error .invalid
      else if new.isPrefixOf old then .error .notEmpty
      else do
        t.renameTarget new src
        .ok (t.move old new)

/-- The content after a change of size. -/
def resize (size : Int) (data : Bytes) : Except ErrClass Bytes :=
  if size < 0 then .error .invalid
  else .ok (data.take size.toNat ++ List.replicate (size.toNat - data.length) 0)

/-- An operation on a plain file system. -/
noncomputable def exec : Op → Except ErrClass Tree
  | .writeFile p data mode => t.writeFile p data mode
  | .openWritable p truncate write =>
    t.rewrite p fun data => .ok (write (if truncate then [] else data))
  | .truncate p size => t.rewrite p (resize size)
  | .mkdir p => t.make p .dir
  | .symlink target p => t.make p (.symlink target)
  | .chmod p mode => t.chmod p mode
  | .remove p => t.remove p
  | .rename old new => t.rename old new

/-- The error of an operation, if it fails. -/
noncomputable def failure (op : Op) : Option ErrClass :=
  match t.exec op with
  | .ok _ => none
  | .error cls => some cls

/-- The tree after an operation, whether it failed or not. -/
noncomputable def step (op : Op) : Tree :=
  match t.exec op with
  | .ok t' => t'
  | .error _ => t

/-- The tree after some operations on the content of a base. -/
noncomputable def after (c : Content) (base : Manifest) (ops : List Op) : Tree :=
  Machine.run step (ofBase c base) ops

end Tree

end GitSlice.LazyFS
