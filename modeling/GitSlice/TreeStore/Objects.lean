import GitSlice.Library.Table
import GitSlice.TreeStore.Edit

/-! # Trees in the object store
`internal/treestore` keeps a tree as objects: a node's entries are stored under the hash of the
entries, and a directory entry holds the hash of the child. `TreeStore.Node` has a node's content in
place of its id; here are the functions of the package as they run, on ids, against an object store.
Writers go to a buffer over the store (`bufferingObjectStore`), which `ApplyEdits` flushes after one
edit set and `ApplyEditChain` after the last one, and `VerifyReachable` reads every object under a
root again.

The hash is a parameter (`TreeHash`): all that is used of it is that different entries have
different ids and that no entries have the id that is not set. -/

namespace GitSlice

/-- An entry of a stored node: `treestore.Entry` without its name. -/
inductive ObjectEntry (τ : Type) where
  /-- A file. -/
  | file (entry : FileEntry)
  /-- A directory and the id of its node. -/
  | directory (treeId : τ)
deriving DecidableEq

/-- A stored node: the `Entries` of `treestore.Node`, each after its name. -/
abbrev TreeObject (τ : Type) := List (String × ObjectEntry τ)

/-- The ids of trees. -/
structure TreeHash (τ : Type) where
  /-- `objectid.TreeID`: the hash of the encoded entries. -/
  treeId : TreeObject τ → τ
  /-- The id that is not set: the empty string. -/
  unset : τ
  treeId_injective : Function.Injective treeId
  treeId_ne_unset : ∀ l, treeId l ≠ unset

/-- `bufferingObjectStore`: writes that are kept before the store. -/
structure Buffering (τ : Type) [DecidableEq τ] where
  /-- The object store. -/
  base : Table τ (TreeObject τ)
  /-- The writes since the last flush. -/
  writes : Table τ (TreeObject τ)

namespace Buffering

variable {τ : Type} [DecidableEq τ]

/-- `newBufferingObjectStore`. -/
def new (base : Table τ (TreeObject τ)) : Buffering τ := ⟨base, .empty⟩

/-- A buffered object before a stored one. -/
def get (b : Buffering τ) (t : τ) : Option (TreeObject τ) :=
  match b.writes.get t with
  | some l => some l
  | none => b.base.get t

/-- Buffers an object. -/
def put (b : Buffering τ) (t : τ) (l : TreeObject τ) : Buffering τ :=
  { b with writes := b.writes.set t l }

/-- `flush`: the object store with all writes. -/
def flush (b : Buffering τ) : Table τ (TreeObject τ) :=
  b.writes.rows.foldl (fun base w => base.set w.1 w.2) b.base

end Buffering

/-- Code of a buffered tree store: a failure leaves the writes made before it. -/
abbrev TreeM (τ : Type) [DecidableEq τ] := ExceptT TreeError (StateM (Buffering τ))

/-- A result without effect on the buffer. -/
def liftExcept {τ : Type} [DecidableEq τ] {α : Type} (r : Except TreeError α) : TreeM τ α :=
  ExceptT.mk (pure r)

namespace TreeObject

variable {τ : Type}

/-- By name. -/
def sortEntries (l : TreeObject τ) : TreeObject τ := l.insertionSort fun x y => x.1 ≤ y.1

/-- The entry of a name. -/
def findEntry (l : TreeObject τ) (name : String) : Option (ObjectEntry τ) := l.lookup name

/-- The first loop of `upsertEntry`: the entry of that name is replaced, if there is one. -/
def replaceEntry (name : String) (e : ObjectEntry τ) : TreeObject τ → Option (TreeObject τ)
  | [] => none
  | x :: l => if x.1 = name then some ((name, e) :: l) else (replaceEntry name e l).map (x :: ·)

/-- Replaces an entry or adds it. -/
def upsertEntry (l : TreeObject τ) (name : String) (e : ObjectEntry τ) : TreeObject τ :=
  match replaceEntry name e l with
  | some l' => sortEntries l'
  | none => sortEntries (l ++ [(name, e)])

/-- The object without a name. -/
def removeEntry (l : TreeObject τ) (name : String) : TreeObject τ := l.filter fun x => x.1 ≠ name

end TreeObject

namespace TreeHash

variable {τ : Type} [DecidableEq τ] (h : TreeHash τ)

/-- `EmptyRootID`. -/
def emptyRootId : τ := h.treeId []

/-- `readNode`. The empty node is not read from the store, and an id that is not set is that of the
empty node. -/
def readNode (t : τ) : TreeM τ (TreeObject τ) := do
  if t = h.unset ∨ t = h.emptyRootId then return []
  else
    match (← get).get t with
    | some l => return l.sortEntries
    | none => throw .notFound

/-- Buffers an object under its id. -/
def writeNode (l : TreeObject τ) : TreeM τ τ := do
  modify fun b => b.put (h.treeId l.sortEntries) l.sortEntries
  return h.treeId l.sortEntries

/-- The entry at a path below the root. -/
def entryAt : τ → List String → TreeM τ (ObjectEntry τ)
  | _, [] => throw .notFound
  | t, [a] => do
    let l ← h.readNode t
    match l.findEntry a with
    | some e => return e
    | none => throw .notFound
  | t, a :: b :: rest => do
    let l ← h.readNode t
    match l.findEntry a with
    | some (.directory c) => entryAt c (b :: rest)
    | _ => throw .notFound

/-- The recursion `setFile` and `setEntry` share. -/
def setAt (required : String) : τ → List String → ObjectEntry τ → TreeM τ τ
  | _, [], _ => throw (.failed required)
  | t, [a], e => do
    let l ← h.readNode t
    h.writeNode (l.upsertEntry a e)
  | t, a :: b :: rest, e => do
    let l ← h.readNode t
    match l.findEntry a with
    | some (.file _) => throw (.failed (a ++ " is not a directory"))
    | some (.directory c) =>
      let c' ← setAt required c (b :: rest) e
      h.writeNode (l.upsertEntry a (.directory c'))
    | none =>
      let c' ← setAt required h.emptyRootId (b :: rest) e
      h.writeNode (l.upsertEntry a (.directory c'))

/-- Puts a file at a path. -/
def setFile (t : τ) (p : List String) (f : FileEntry) : TreeM τ τ :=
  h.setAt "file path is required" t p (.file f)

/-- Puts an entry at a path. -/
def setEntry (t : τ) (p : List String) (e : ObjectEntry τ) : TreeM τ τ :=
  h.setAt "path is required" t p e

/-- Makes a directory, unless there is one. -/
def setDirectory : τ → List String → TreeM τ τ
  | _, [] => throw (.failed "directory path is required")
  | t, [a] => do
    let l ← h.readNode t
    match l.findEntry a with
    | some (.file _) => throw (.failed (a ++ " is not a directory"))
    | some (.directory _) => return t
    | none => h.writeNode (l.upsertEntry a (.directory h.emptyRootId))
  | t, a :: b :: rest => do
    let l ← h.readNode t
    match l.findEntry a with
    | some (.file _) => throw (.failed (a ++ " is not a directory"))
    | some (.directory c) =>
      let c' ← setDirectory c (b :: rest)
      h.writeNode (l.upsertEntry a (.directory c'))
    | none =>
      let c' ← setDirectory h.emptyRootId (b :: rest)
      h.writeNode (l.upsertEntry a (.directory c'))

/-- The new tree, and whether it was emptied. -/
def deletePath : τ → List String → TreeM τ (τ × Bool)
  | t, [] => return (t, false)
  | t, [a] => do
    let l ← h.readNode t
    match l.findEntry a with
    | none => return (t, false)
    | some _ => return (← h.writeNode (l.removeEntry a), (l.removeEntry a).isEmpty)
  | t, a :: b :: rest => do
    let l ← h.readNode t
    match l.findEntry a with
    | some (.directory c) =>
      let (c', emptied) ← deletePath c (b :: rest)
      let l' := if emptied then l.removeEntry a else l.upsertEntry a (.directory c')
      return (← h.writeNode l', emptied && l'.isEmpty)
    | _ => return (t, false)

/-- The edit of an entry of the node itself: the first loop of `applyBatch`. -/
def applyLeaf (acc : TreeObject τ × Bool) (e : BatchEdit) :
    Except TreeError (TreeObject τ × Bool) :=
  match e.parts with
  | [name] =>
    match e.op with
    | .delete =>
      match acc.1.findEntry name with
      | some _ => .ok (acc.1.removeEntry name, true)
      | none => .ok acc
    | .mkdir =>
      match acc.1.findEntry name with
      | some (.file _) => .error (.failed (name ++ " is not a directory"))
      | some (.directory _) => .ok acc
      | none => .ok (acc.1.upsertEntry name (.directory h.emptyRootId), acc.2)
    | .upsert f => .ok (acc.1.upsertEntry name (.file f), acc.2)
  | _ => .ok acc

/-- The edits of one child: the second loop of `applyBatch`. -/
def applyChild (recurse : τ → List BatchEdit → TreeM τ (τ × Bool)) (edits : List BatchEdit)
    (acc : TreeObject τ × Bool) (name : String) : TreeM τ (TreeObject τ × Bool) :=
  let below := childEdits edits name
  let onlyDeletes := below.all fun e => e.op == .delete
  let within (c : τ) : TreeM τ (TreeObject τ × Bool) := do
    let (c', emptied) ← recurse c below
    if emptied then return (acc.1.removeEntry name, true)
    else return (acc.1.upsertEntry name (.directory c'), acc.2)
  match acc.1.findEntry name with
  | some (.file _) =>
    if onlyDeletes then return acc else throw (.failed (name ++ " is not a directory"))
  | some (.directory c) => within c
  | none => if onlyDeletes then return acc else within h.emptyRootId

/-- `applyBatch`, to a depth that the paths of the edits bound. -/
def applyBatchTo : Nat → τ → List BatchEdit → TreeM τ (τ × Bool)
  | 0, t, _ => do
    -- the edits have no segments left: the node is written as it is
    let l ← h.readNode t
    return (← h.writeNode l, false)
  | depth + 1, t, edits => do
    let l ← h.readNode t
    let acc ← liftExcept (edits.foldlM h.applyLeaf (l, false))
    let acc ← (childNames edits).foldlM (h.applyChild (applyBatchTo depth) edits) acc
    return (← h.writeNode acc.1, acc.2 && acc.1.isEmpty)

/-- A batch, as deep as its longest path. -/
def applyBatch (t : τ) (edits : List BatchEdit) : TreeM τ (τ × Bool) :=
  h.applyBatchTo ((edits.map fun e => e.parts.length).foldr max 0) t edits

/-- The id after a `setEntry` whose error is not looked at: it is not set. -/
def ignoringError (m : TreeM τ τ) : TreeM τ τ := tryCatch m fun _ => return h.unset

/-- The body of the loop of `applyEditsSequential`. -/
def applyEdit (t : τ) : TreeEdit → TreeM τ τ
  | .mkdir p => h.setDirectory t (splitPath p)
  | .delete p => return (← h.deletePath t (splitPath p)).1
  | .rename old p => do
    let e ← h.entryAt t (splitPath old)
    let (t', _) ← h.deletePath t (splitPath old)
    h.ignoringError (h.setEntry t' (splitPath p) e)
  | .copy old p => do
    let e ← h.entryAt t (splitPath old)
    h.ignoringError (h.setEntry t (splitPath p) e)
  | .upsert p f => h.setFile t (splitPath p) f

/-- One edit after the other. -/
def applyEditsSequential (t : τ) (edits : List TreeEdit) : TreeM τ τ := edits.foldlM h.applyEdit t

/-- As a batch where that is possible. -/
def applyEditSet (t : τ) (edits : List TreeEdit) : TreeM τ τ := do
  if edits = [] then return t
  else if canApplyEditsInBatch edits then
    let ops ← liftExcept (edits.mapM Edit.toBatch)
    return (← h.applyBatch t ops).1
  else h.applyEditsSequential t edits

/-- `ApplyEdits`: the new root and the object store, which a failure leaves as it is. -/
def applyEdits (objects : Table τ (TreeObject τ)) (t : τ) (edits : List TreeEdit) :
    Except TreeError τ × Table τ (TreeObject τ) :=
  match (h.applyEditSet t edits).run.run (.new objects) with
  | (.ok t', b) => (.ok t', b.flush)
  | (.error err, _) => (.error err, objects)

/-- The loop of `ApplyEditChain`: the root after each edit set. -/
def applyEditSets (t : τ) : List (List TreeEdit) → TreeM τ (List τ)
  | [] => return []
  | edits :: rest => do
    let t' ← h.applyEditSet t edits
    return t' :: (← applyEditSets t' rest)

/-- `ApplyEditChain`: all edit sets are applied before one flush. -/
def applyEditChain (objects : Table τ (TreeObject τ)) (t : τ) (editSets : List (List TreeEdit)) :
    Except TreeError (List τ) × Table τ (TreeObject τ) :=
  match (h.applyEditSets t editSets).run.run (.new objects) with
  | (.ok roots, b) => (.ok roots, b.flush)
  | (.error err, _) => (.error err, objects)

/-- `EnsureEmptyRoot`. -/
def ensureEmptyRoot (objects : Table τ (TreeObject τ)) : Table τ (TreeObject τ) :=
  objects.set h.emptyRootId []

/-- `GetEntry`: the root is a directory of the id that was asked for. -/
def getEntry (objects : Table τ (TreeObject τ)) (t : τ) (p : List String) :
    Except TreeError (ObjectEntry τ) :=
  if p = [] then .ok (.directory t) else ((h.entryAt t p).run.run (.new objects)).1

end TreeHash

/-! ## Verification -/

/-- The errors of `VerifyReachable`. -/
inductive VerifyError (τ : Type) where
  /-- `read tree %s: %w`. -/
  | notFound (treeId : τ)
  /-- `tree id is required`. -/
  | idRequired
  /-- `tree %s content hash mismatch: computed %s`. -/
  | hashMismatch (treeId computed : τ)
  /-- `tree %s has invalid entry name %q`. -/
  | invalidName (treeId : τ) (name : String)
  /-- `tree %s has duplicate entry %q`. -/
  | duplicate (treeId : τ) (name : String)
  /-- `file %s/%s has incomplete blob metadata`. -/
  | incompleteBlob (path : String)
  /-- `file %s/%s has empty mode`. -/
  | emptyMode (path : String)
  /-- `directory %s/%s has empty tree id`. -/
  | emptyTreeId (path : String)
  /-- The recursion is cut off: there is no such error in the source. -/
  | outOfFuel

/-- `VerificationReport` without the root, and the ids seen. -/
structure VerificationReport (τ : Type) where
  /-- The ids of the nodes read. -/
  seen : List τ
  treeCount : Nat
  fileCount : Nat
  maxDepth : Nat

namespace TreeHash

variable {τ : Type} [DecidableEq τ] (h : TreeHash τ)

/-- A stored object, with its entries in order. -/
def readNodeStrict (objects : Table τ (TreeObject τ)) (t : τ) :
    Except (VerifyError τ) (TreeObject τ) :=
  if t = h.unset then .error .idRequired
  else
    match objects.get t with
    | some l => .ok l.sortEntries
    | none => .error (.notFound t)

/-- The loop of `verifyTree` over the entries of the node `t`, with the names so far. `recurse`
verifies a child. -/
def verifyEntries
    (recurse : τ → String → VerificationReport τ → Except (VerifyError τ) (VerificationReport τ))
    (t : τ) (above : String) : List String → TreeObject τ → VerificationReport τ →
      Except (VerifyError τ) (VerificationReport τ)
  | _, [], report => .ok report
  | names, (name, e) :: l, report =>
    if validSegment name = false then .error (.invalidName t name)
    else if name ∈ names then .error (.duplicate t name)
    else
      match e with
      | .file f =>
        if f.blobId = "" ∨ f.contentHash = "" then .error (.incompleteBlob (above ++ "/" ++ name))
        else if f.mode = 0 then .error (.emptyMode (above ++ "/" ++ name))
        else
          verifyEntries recurse t above (name :: names) l { report with fileCount := report.fileCount + 1 }
      | .directory c =>
        if c = h.unset then .error (.emptyTreeId (above ++ "/" ++ name))
        else do
          let report ← recurse c (above ++ "/" ++ name) report
          verifyEntries recurse t above (name :: names) l report

/-- `verifyTree`, to a depth. -/
def verifyTree (objects : Table τ (TreeObject τ)) : Nat → τ → String → Nat → VerificationReport τ →
    Except (VerifyError τ) (VerificationReport τ)
  | 0, _, _, _, _ => .error .outOfFuel
  | fuel + 1, t, above, depth, report =>
    if t ∈ report.seen then .ok report
    else do
      let l ← h.readNodeStrict objects t
      if h.treeId l.sortEntries ≠ t then .error (.hashMismatch t (h.treeId l.sortEntries))
      else
        h.verifyEntries (fun c path => verifyTree objects fuel c path (depth + 1)) t above [] l
          { report with
            seen := t :: report.seen, treeCount := report.treeCount + 1
            maxDepth := max depth report.maxDepth }

/-- `VerifyReachable`. -/
def verifyReachable (fuel : Nat) (objects : Table τ (TreeObject τ)) (t : τ) :
    Except (VerifyError τ) (VerificationReport τ) :=
  h.verifyTree objects fuel (if t = h.unset then h.emptyRootId else t) "" 0 ⟨[], 0, 0, 0⟩

end TreeHash

end GitSlice
