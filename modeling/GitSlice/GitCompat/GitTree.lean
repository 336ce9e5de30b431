import GitSlice.Diff.Lines
import GitSlice.GitCompat.Projection

/-! # Git trees
The canonical Git tree of a map of files (`FileMap.treeID`), and the builder of `gittree.go` that
keeps a slice's directories in memory and recomputes only those a commit touches. Object ids are raw
bytes; SHA-1 is a parameter, since nothing here depends on how it hashes. -/

namespace GitSlice

/-- A name's entry in a Git tree. -/
structure TreeEntry where
  /-- The mode: that of a file, or `40000` for a directory. -/
  mode : String
  /-- The object id; empty for a directory that was not computed yet. -/
  sha : Bytes
  /-- The entry is a directory. -/
  isDir : Bool
deriving DecidableEq

/-- The mode of a directory entry. -/
def dirMode : String := "40000"

/-- What `encodeTree` orders an entry by: a directory as if its name ended in a slash. -/
def treeEntryKey (row : String × TreeEntry) : String :=
  if row.2.isDir then row.1 ++ "/" else row.1

/-- The bytes of one entry. -/
def encodeEntry (row : String × TreeEntry) : Bytes :=
  utf8 row.2.mode ++ [32] ++ utf8 row.1 ++ [0] ++ row.2.sha

/-- `encodeTree`: the entries in Git's order. -/
def encodeTree (rows : List (String × TreeEntry)) : Bytes :=
  (rows.insertionSort fun x y => treeEntryKey x ≤ treeEntryKey y).flatMap encodeEntry

section

variable (sha1 : Bytes → Bytes)

/-- The hash of an object with its header. -/
def gitObjectID (kind : String) (data : Bytes) : Bytes :=
  sha1 (utf8 (kind ++ " " ++ toString data.length) ++ [0] ++ data)

/-- `emptyTreeID`, which Git knows without an object. -/
def emptyTreeID : Bytes := gitObjectID sha1 "tree" []

end

/-! ## The canonical tree of a map of files -/

namespace FileMap

/-- The name under a directory that a path goes through. -/
def nameUnder (d p : Path) : Option String := if d <+: p then (p.drop d.length).head? else none

/-- The names directly under a directory: files, and directories with files. -/
def names (files : FileMap) (d : Path) : List String :=
  (files.rows.filterMap fun row => nameUnder d row.1).dedup

variable (sha1 : Bytes → Bytes) (blob : String → Bytes)

/-- The entry of a name: a file, or the tree of the directory. -/
def gitEntry (files : FileMap) (tree : Path → Bytes) (d : Path) (name : String) : TreeEntry :=
  match files.get (d ++ [name]) with
  | some f => ⟨f.mode, blob f.contentHash, false⟩
  | none => ⟨dirMode, tree (d ++ [name]), true⟩

/-- The id of the tree of a directory, for directories of some depth. -/
def treeIDTo (files : FileMap) : Nat → Path → Bytes
  | 0, _ => emptyTreeID sha1
  | depth + 1, d =>
    gitObjectID sha1 "tree"
      (encodeTree ((files.names d).map fun n => (n, files.gitEntry blob (treeIDTo files depth) d n)))

/-- The length of the longest path. -/
def depth (files : FileMap) : Nat := (files.rows.map fun row => row.1.length).foldr max 0

/-- The id of the **canonical Git tree** of a directory: its files and its directories that have
files, in Git's order. -/
def treeID (files : FileMap) (d : Path) : Bytes :=
  treeIDTo sha1 blob files (files.depth - d.length) d

end FileMap

/-! ## The builder -/

/-- A directory in memory. -/
structure DirNode where
  entries : Table String TreeEntry
  sha : Bytes
  dirty : Bool

/-- A tree object. -/
structure GitObject where
  id : Bytes
  data : Bytes
deriving DecidableEq

/-- The directories, with the objects to be written. -/
structure TreeBuilder where
  /-- `dirs`, where the root is the empty path. -/
  dirs : Table Path DirNode
  objects : List GitObject
  seen : List Bytes

namespace TreeBuilder

/-- `dir`: a directory, or a new one. -/
def dir (b : TreeBuilder) (d : Path) : DirNode := (b.dirs.get d).getD ⟨.empty, [], true⟩

/-- Write a directory. -/
def setDir (b : TreeBuilder) (d : Path) (node : DirNode) : TreeBuilder :=
  { b with dirs := b.dirs.set d node }

/-- Write an entry of a directory. -/
def setEntry (b : TreeBuilder) (d : Path) (name : String) (e : TreeEntry) : TreeBuilder :=
  b.setDir d { b.dir d with entries := (b.dir d).entries.set name e }

/-- Delete an entry of a directory. -/
def eraseEntry (b : TreeBuilder) (d : Path) (name : String) : TreeBuilder :=
  b.setDir d { b.dir d with entries := (b.dir d).entries.erase name }

/-- The step of `markDirty` from a directory to its parent: an entry is added if there is none. -/
def linkParent (b : TreeBuilder) (d : Path) (name : String) : TreeBuilder :=
  match (b.dir d).entries.get name with
  | some _ => b.setDir d (b.dir d)
  | none => b.setEntry d name ⟨dirMode, [], true⟩

/-- `markDirty`, along the reversed path. -/
def markDirtyFrom (b : TreeBuilder) : List String → TreeBuilder
  | [] => b.setDir [] { b.dir [] with dirty := true }
  | name :: above =>
    let d := (name :: above).reverse
    let b := b.setDir d { b.dir d with dirty := true }
    markDirtyFrom (b.linkParent above.reverse name) above

/-- The directory and those above it. -/
def markDirty (b : TreeBuilder) (d : Path) : TreeBuilder := b.markDirtyFrom d.reverse

/-- Sets an entry of a directory. -/
def set (b : TreeBuilder) (d : Path) (name : String) (e : TreeEntry) : TreeBuilder :=
  (b.setEntry d name e).markDirty d

/-- The loop of `remove` over the directories it leaves empty, along the reversed path: what is left
of the path, and the builder. -/
def pruneFrom (b : TreeBuilder) : List String → TreeBuilder × Path
  | [] => (b, [])
  | name :: above =>
    let d := (name :: above).reverse
    if (b.dir d).entries.rows = [] then
      pruneFrom (({ b with dirs := b.dirs.erase d } : TreeBuilder).eraseEntry above.reverse name) above
    else (b, d)

/-- Removes an entry, and the directories this empties. -/
def remove (b : TreeBuilder) (d : Path) (name : String) : TreeBuilder :=
  match b.dirs.get d with
  | none => b
  | some _ =>
    let pruned := (b.eraseEntry d name).pruneFrom d.reverse
    pruned.1.markDirty pruned.2

section

variable (sha1 : Bytes → Bytes) (blob : String → Bytes)

/-- One change of a file. -/
def apply (b : TreeBuilder) (change : FileChange) : TreeBuilder :=
  match change.1.getLast?, change.2 with
  | none, _ => b
  | some name, none => b.remove change.1.dropLast name
  | some name, some f => b.set change.1.dropLast name ⟨f.mode, blob f.contentHash, false⟩

/-- The body of the loop of `root`. -/
def rehash (b : TreeBuilder) (d : Path) : TreeBuilder :=
  match b.dirs.get d with
  | none => b
  | some node =>
    if node.entries.rows = [] ∧ d = [] then
      b.setDir d { node with sha := emptyTreeID sha1, dirty := false }
    else
      let data := encodeTree node.entries.rows
      let sha := gitObjectID sha1 "tree" data
      let b := b.setDir d { node with sha := sha, dirty := false }
      let b : TreeBuilder :=
        if sha ∈ b.seen then b
        else { b with seen := sha :: b.seen, objects := b.objects ++ [⟨sha, data⟩] }
      match d.getLast? with
      | none => b
      | some name => b.setEntry d.dropLast name ⟨dirMode, sha, true⟩

/-- The dirty directories, deeper ones first. -/
def dirtyDirs (b : TreeBuilder) : List Path :=
  ((b.dirs.rows.filter fun row => row.2.dirty).map Prod.fst).insertionSort fun p q =>
    q.length < p.length ∨ (p.length = q.length ∧ joinParts p ≤ joinParts q)

/-- `root`: the builder afterwards; the id is the one of the root directory. -/
def root (b : TreeBuilder) : TreeBuilder := b.dirtyDirs.foldl (rehash sha1) b

/-- The id `root` returns. -/
def rootID (b : TreeBuilder) : Bytes := (b.dir []).sha

/-- A builder with an empty root. -/
def empty : TreeBuilder := ⟨Table.empty.set [] ⟨.empty, [], true⟩, [], []⟩

/-- `newTreeBuilder`. -/
def new (files : FileMap) : TreeBuilder :=
  let b := files.rows.foldl (fun b row => b.apply blob (row.1, some row.2)) empty
  { root sha1 b with objects := [] }

end

end TreeBuilder

end GitSlice
