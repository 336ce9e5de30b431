import GitSlice.TreeStore.Edit

/-! # Reading trees
`ListDirectory`, `ListTree` and `ListFiles` of `tree_read.go`. Each reads a part of the tree in an
order of its own (one node, level by level, depth first) and sorts what it has by the path
strings. -/

namespace GitSlice

/-- `sort.Slice` by the path strings. -/
def sortByPath {α : Type} (l : List (List String × α)) : List (List String × α) :=
  l.insertionSort fun r r' => renderPath r.1 ≤ renderPath r'.1

namespace Node

/-- The entries of a node. -/
def entries : Node → List (String × Entry)
  | .nil => []
  | .file a f rest => (a, .file f) :: rest.entries
  | .directory a c rest => (a, .directory c) :: rest.entries

/-- The entries of a node at a path, as `treeEntryFromNodeEntry` makes them. -/
def treeEntries (d : List String × Node) : List (List String × Entry) :=
  d.2.entries.map fun x => (d.1 ++ [x.1], x.2)

/-- The directories among the entries of a node. -/
def directories (d : List String × Node) : List (List String × Node) :=
  d.2.entries.filterMap fun x =>
    match x.2 with
    | .file _ => none
    | .directory c => some (d.1 ++ [x.1], c)

/-- `ListDirectory`. -/
def listDirectory (n : Node) (p : List String) : List (List String × Entry) :=
  match n.getEntry p with
  | none => []
  | some (.file f) => [(p, .file f)]
  | some (.directory c) => sortByPath (treeEntries (p, c))

/-- How many levels of entries a tree has. -/
def depth : Node → Nat
  | .nil => 0
  | .file _ _ rest => max 1 rest.depth
  | .directory _ c rest => max (c.depth + 1) rest.depth

/-- The loop of `ListTree`, which reads one level after the other. -/
def listLevels : Nat → List (List String × Node) → List (List String × Entry)
  | 0, _ => []
  | levels + 1, level => level.flatMap treeEntries ++ listLevels levels (level.flatMap directories)

/-- `ListTree`. -/
def listTree (n : Node) (p : List String) : List (List String × Entry) :=
  match n.getEntry p with
  | none => []
  | some (.file f) => [(p, .file f)]
  | some (.directory c) => sortByPath (listLevels c.depth [(p, c)])

/-- The loop of `collectFiles` over the entries of a node. -/
def collectEntries (p : List String) : Node → List (List String × FileEntry)
  | .nil => []
  | .file a f rest => (p ++ [a], f) :: collectEntries p rest
  | .directory a c rest => sortByPath (collectEntries (p ++ [a]) c) ++ collectEntries p rest

/-- The files below a path. -/
def collectFiles (n : Node) (p : List String) : List (List String × FileEntry) :=
  sortByPath (collectEntries p n)

/-- `ListFiles`. -/
def listFiles (n : Node) (p : List String) : List (List String × FileEntry) :=
  match n.getEntry p with
  | none => []
  | some (.file f) => [(p, f)]
  | some (.directory c) => collectFiles c p

end Node

end GitSlice
