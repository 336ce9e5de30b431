import Mathlib.Data.List.MinMax
import Mathlib.Order.Nat
import GitSlice.Library.Except
import GitSlice.TreeStore.Node
import Mathlib.Data.List.Dedup
import Mathlib.Data.List.Pairwise
import Mathlib.Data.List.Sort

/-! # Edit sets
`tree_edit.go`: an edit set is applied to a tree either all at once (`applyBatch`, when
`canApplyEditsInBatch` finds no two of its paths one under the other) or one edit after the other
(`applyEditsSequential`), and a chain of edit sets by applying each to the tree of the one before.

The module proves what the two ways have in common. `applyEditSet_changesIn` is the frame of an edit
set, and `applyEditSet_effect` says what it leaves at its own paths when none of them overlaps
another one and no file stands above one of them. The latter is needed: `applyEditsSequential` loses
the error of a rename or a copy whose target lies below a file, and goes on with the empty tree. -/

namespace GitSlice

open Node List GitSlice.Except

/-- An edit of a tree, with the fields its operation uses; `φ` is what an upsert carries. -/
inductive Edit (φ : Type) where
  /-- Write a file. -/
  | upsert (path : Path) (file : φ)
  /-- Delete what is at the path. -/
  | delete (path : Path)
  /-- Make a directory. -/
  | mkdir (path : Path)
  /-- Move what is at `oldPath` to `path`. -/
  | rename (oldPath path : Path)
  /-- Put what is at `oldPath` at `path` too. -/
  | copy (oldPath path : Path)
deriving DecidableEq

/-- `treestore.FileEdit`: an upsert carries the file's metadata. -/
abbrev TreeEdit := Edit FileEntry

namespace Edit

variable {φ : Type}

/-- The path the edit is named by (`Path`). -/
def path : Edit φ → Path
  | upsert p _ | delete p | mkdir p | rename _ p | copy _ p => p

/-- The paths the edit changes: its own, and the one a rename moves away. -/
def writes : Edit φ → List Path
  | rename old p => [p, old]
  | e => [e.path]

/-- The path the edit reads and does not change: the source of a copy. -/
def reads : Edit φ → List Path
  | copy old _ => [old]
  | _ => []

/-- The tree after a `setEntry` whose error is not looked at. In the rename and copy branches of
`applyEditsSequential` the result of `setEntry` goes to an `err` of the branch's own scope, so a
failure is not reported; the tree id it leaves is empty, which reads as the empty tree. -/
def ignoringError : Except TreeError Node → Node
  | .ok n => n
  | .error _ => .nil

/-- The body of the loop of `applyEditsSequential`. A rename or a copy of the root, at which the
source panics, finds no entry here. -/
def apply (n : Node) : TreeEdit → Except TreeError Node
  | mkdir p => n.setDirectory (splitPath p)
  | delete p => .ok (n.deletePath (splitPath p)).1
  | rename old p =>
    match n.entryAt (splitPath old) with
    | none => .error .notFound
    | some e => .ok (ignoringError ((n.deletePath (splitPath old)).1.setEntry (splitPath p) e))
  | copy old p =>
    match n.entryAt (splitPath old) with
    | none => .error .notFound
    | some e => .ok (ignoringError (n.setEntry (splitPath p) e))
  | upsert p f => n.setFile (splitPath p) f

end Edit

/-- `applyEditsSequential`: one edit after the other. -/
def applyEditsSequential (n : Node) (edits : List TreeEdit) : Except TreeError Node :=
  edits.foldlM Edit.apply n

/-! ## Batches -/

/-- `strings.Join(parts, "/")`. -/
def joinParts (parts : List String) : String := String.intercalate "/" parts

/-- No path of the list is the one before it or lies under that. -/
def adjacentApart : List (List String) → Bool
  | prev :: cur :: rest => !prev.isPrefixOf cur && adjacentApart (cur :: rest)
  | _ => true

/-- The loop of `canApplyEditsInBatch`, with the paths collected so far. An edit of the root ends it
at once. -/
def canApplyEditsInBatchFrom (paths : List (List String)) : List TreeEdit → Bool
  | [] => adjacentApart (paths.insertionSort fun p q => joinParts p ≤ joinParts q)
  | .rename _ _ :: _ => false
  | .copy _ _ :: _ => false
  | e :: rest =>
    if splitPath e.path = [] then true
    else canApplyEditsInBatchFrom (paths ++ [splitPath e.path]) rest

/-- `canApplyEditsInBatch`. It compares each path with the next one in the order of the joined
strings only, where a path and one under it need not be neighbours (`a`, `a-b`, `a/c`). -/
def canApplyEditsInBatch (edits : List TreeEdit) : Bool := canApplyEditsInBatchFrom [] edits

/-- The operation of a `batchEdit`. -/
inductive BatchOp where
  /-- Write a file. -/
  | upsert (file : FileEntry)
  /-- Delete. -/
  | delete
  /-- Make a directory. -/
  | mkdir
deriving DecidableEq

/-- An edit of a batch, without renames and copies. -/
structure BatchEdit where
  op : BatchOp
  /-- The path, from the node the edit is applied to. -/
  parts : List String
deriving DecidableEq

/-- A path as the source writes it. -/
def renderPath (p : Path) : String := "/" ++ joinParts p

/-- The `batchEdit` of an edit, as `applyEditSet` makes it. -/
def Edit.toBatch : TreeEdit → Except TreeError BatchEdit
  | .upsert p f =>
    if splitPath p = [] then .error (.failed "file path is required") else .ok ⟨.upsert f,
      splitPath p⟩
  | .delete p => .ok ⟨.delete, splitPath p⟩
  | .mkdir p =>
    if splitPath p = [] then .error (.failed "file path is required") else .ok ⟨.mkdir, splitPath p⟩
  | .rename _ p | .copy _ p =>
    if splitPath p = [] then .error (.failed "file path is required")
    else .error (.failed ("file edit for " ++ renderPath p ++ " requires file metadata"))

/-- The edit of an entry of the node itself: the first loop of `applyBatch`. -/
def applyLeaf (acc : Node × Bool) (e : BatchEdit) : Except TreeError (Node × Bool) :=
  match e.parts with
  | [name] =>
    match e.op with
    | .delete =>
      match acc.1.findEntry name with
      | some _ => .ok (acc.1.removeEntry name, true)
      | none => .ok acc
    | .mkdir =>
      match acc.1.findEntry name with
      | some (.file _) => .error (.failed (name ++ " is not a directory"))
      | some (.directory _) => .ok acc
      | none => .ok (acc.1.upsertEntry name (.directory .nil), acc.2)
    | .upsert f => .ok (acc.1.upsertEntry name (.file f), acc.2)
  | _ => .ok acc

/-- The edits below a name, as edits of its child. -/
def childEdits (edits : List BatchEdit) (name : String) : List BatchEdit :=
  edits.filterMap fun e =>
    match e.parts with
    | a :: b :: rest => if a = name then some ⟨e.op, b :: rest⟩ else none
    | _ => none

/-- The names with edits below them: the keys of `childEdits`. -/
def childNames (edits : List BatchEdit) : List String :=
  (edits.filterMap fun e =>
    match e.parts with
    | a :: _ :: _ => some a
    | _ => none).dedup

/-- The edits of one child: the second loop of `applyBatch`. `recurse` applies a batch to the
child. -/
def applyChild (recurse : Node → List BatchEdit → Except TreeError (Node × Bool))
    (edits : List BatchEdit) (acc : Node × Bool) (name : String) : Except TreeError (Node × Bool) :=
  let below := childEdits edits name
  let onlyDeletes := below.all fun e => e.op == .delete
  match acc.1.findEntry name with
  | some (.file _) =>
    if onlyDeletes then .ok acc else .error (.failed (name ++ " is not a directory"))
  | found =>
    if found = none ∧ onlyDeletes then .ok acc
    else do
      let (c, emptied) ← recurse (acc.1.child name) below
      if emptied then return (acc.1.removeEntry name, true)
      else return (acc.1.upsertEntry name (.directory c), acc.2)

/-- `applyBatch`, to a depth that the paths of the edits bound. It reports whether deletes left the
node empty. -/
def applyBatchTo : Nat → Node → List BatchEdit → Except TreeError (Node × Bool)
  | 0, n, _ => .ok (n, false)
  | depth + 1, n, edits => do
    let acc ← edits.foldlM applyLeaf (n, false)
    let acc ← (childNames edits).foldlM (applyChild (applyBatchTo depth) edits) acc
    return (acc.1, acc.2 && acc.1.isEmpty)

/-- `applyBatch`: no edit is deeper than the longest path. -/
def applyBatch (n : Node) (edits : List BatchEdit) : Except TreeError (Node × Bool) :=
  applyBatchTo ((edits.map fun e => e.parts.length).foldr max 0) n edits

/-- As a batch where that is possible. -/
def applyEditSet (n : Node) (edits : List TreeEdit) : Except TreeError Node :=
  if edits = [] then .ok n
  else if canApplyEditsInBatch edits then do
    let ops ← edits.mapM Edit.toBatch
    let (n', _) ← applyBatch n ops
    return n'
  else applyEditsSequential n edits

/-- `ApplyEdits`. -/
def applyEdits (n : Node) (edits : List TreeEdit) : Except TreeError Node := applyEditSet n edits

/-- `ApplyEditChain`: the root after each edit set. -/
def applyEditChain (n : Node) : List (List TreeEdit) → Except TreeError (List Node)
  | [] => .ok []
  | edits :: rest => do
    let n' ← applyEditSet n edits
    let roots ← applyEditChain n' rest
    return n' :: roots

/-! ## The frame of a batch -/

/-- The path of an edit of an entry of the node itself. -/
def BatchEdit.leafPath (e : BatchEdit) : List (List String) :=
  match e.parts with
  | [name] => [[name]]
  | _ => []

variable {acc acc' : Node × Bool}

theorem changesIn_applyLeaf {e : BatchEdit} (h : applyLeaf acc e = .ok acc') :
    ChangesIn e.leafPath acc.1 acc'.1 := by
  rw [applyLeaf] at h
  rw [BatchEdit.leafPath]
  split at h
  · split at h
    · split at h
      · cases h
        exact ChangesIn.single fun b hb => by rw [findEntry_removeEntry, if_neg hb]
      · cases h
        exact ChangesIn.refl _ _
    · split at h
      · cases h
      · cases h
        exact ChangesIn.refl _ _
      · cases h
        exact ChangesIn.single fun b hb => by rw [findEntry_upsertEntry, if_neg hb]
    · cases h
      exact ChangesIn.single fun b hb => by rw [findEntry_upsertEntry, if_neg hb]
  · cases h
    exact ChangesIn.refl _ _

variable {edits : List BatchEdit}

theorem changesIn_applyLeaves (h : edits.foldlM applyLeaf acc = .ok acc') :
    ChangesIn (edits.flatMap BatchEdit.leafPath) acc.1 acc'.1 := by
  induction edits generalizing acc with
  | nil =>
    cases h
    exact ChangesIn.refl _ _
  | cons e edits ih =>
    obtain ⟨m, hm, hrest⟩ := foldlM_cons_ok.mp h
    exact (changesIn_applyLeaf hm).trans (ih hrest)

variable {p : List String}

theorem mem_leafPath {e : BatchEdit} (h : p ∈ e.leafPath) : p = e.parts ∧ ∃ name, p = [name] := by
  rw [BatchEdit.leafPath] at h
  split at h
  · rename_i name hparts
    rw [mem_singleton] at h
    exact ⟨h.trans hparts.symm, name, h⟩
  · cases h

variable {name : String}

theorem mem_childEdits {e : BatchEdit} :
    e ∈ childEdits edits name ↔ e.parts ≠ [] ∧ ⟨e.op, name :: e.parts⟩ ∈ edits := by
  obtain ⟨op, parts⟩ := e
  rw [childEdits, mem_filterMap]
  constructor
  · rintro ⟨d, hd, he⟩
    obtain ⟨dop, dparts⟩ := d
    split at he
    · rename_i a b rest hparts
      split at he
      · rename_i ha
        cases he
        subst hparts ha
        exact ⟨cons_ne_nil _ _, hd⟩
      · cases he
    · cases he
  · rintro ⟨hne, hmem⟩
    refine ⟨_, hmem, ?_⟩
    obtain ⟨b, rest, rfl⟩ := exists_cons_of_ne_nil hne
    simp

theorem mem_childNames : name ∈ childNames edits ↔ childEdits edits name ≠ [] := by
  rw [childNames, mem_dedup, mem_filterMap]
  constructor
  · rintro ⟨e, he, hname⟩ hnil
    obtain ⟨op, parts⟩ := e
    split at hname
    · rename_i a b rest hparts
      cases hname
      subst hparts
      have : (⟨op, b :: rest⟩ : BatchEdit) ∈ childEdits edits name :=
        mem_childEdits.mpr ⟨cons_ne_nil _ _, he⟩
      rw [hnil] at this
      cases this
    · cases hname
  · intro hne
    obtain ⟨e, he⟩ := exists_mem_of_ne_nil _ hne
    obtain ⟨hparts, hmem⟩ := mem_childEdits.mp he
    obtain ⟨b, rest, hbr⟩ := exists_cons_of_ne_nil hparts
    refine ⟨_, hmem, ?_⟩
    simp only [hbr]

variable {n : Node} {depth : Nat}

theorem applyBatchTo_emptied {c : Node} (h : applyBatchTo depth n edits = .ok (c, true)) :
    c = .nil := by
  cases depth with
  | zero => cases h
  | succ depth =>
    obtain ⟨acc, -, hrest⟩ := bind_eq_ok.mp h
    obtain ⟨acc', -, hret⟩ := bind_eq_ok.mp hrest
    have hpair : acc'.1 = c ∧ (acc'.2 && acc'.1.isEmpty) = true := by
      have := Except.ok.inj hret
      exact ⟨congrArg Prod.fst this, congrArg Prod.snd this⟩
    rw [← hpair.1]
    exact eq_nil_of_isEmpty (Bool.and_eq_true_iff.mp hpair.2).2

theorem childPaths_subset (edits : List BatchEdit) (name : String) :
    ∀ p ∈ (childEdits edits name).map fun e => name :: e.parts, p ∈ edits.map BatchEdit.parts := by
  intro p hp
  obtain ⟨e, he, rfl⟩ := mem_map.mp hp
  exact mem_map.mpr ⟨_, (mem_childEdits.mp he).2, rfl⟩

/-- What the edits of one child come to: nothing where there is no directory to delete from, or what
they make of the child. -/
theorem applyChild_cases (h : applyChild (applyBatchTo depth) edits acc name = .ok acc') :
    (acc' = acc ∧ acc.1.child name = .nil ∧ ∀ e ∈ childEdits edits name, e.op = .delete) ∨
      (∃ c emptied, applyBatchTo depth (acc.1.child name) (childEdits edits name) =
        .ok (c, emptied) ∧
        acc' = (if emptied then (acc.1.removeEntry name, true)
          else (acc.1.upsertEntry name (.directory c), acc.2)) ∧
        (∀ f, acc.1.findEntry name ≠ some (.file f)) ∧
        (acc.1.findEntry name = none → ¬ ∀ e ∈ childEdits edits name, e.op = .delete) ∧
        acc'.1.child name = c ∧ acc'.1.fileAt [name] = acc.1.fileAt [name] ∧
        ∀ b, name ≠ b → acc'.1.findEntry b = acc.1.findEntry b) := by
  have hdeletes : ((childEdits edits name).all fun e => e.op == .delete) = true ↔
      ∀ e ∈ childEdits edits name, e.op = .delete := by simp
  rw [applyChild] at h
  split at h
  · rename_i f hf
    split_ifs at h with hall
    cases h
    exact .inl ⟨rfl, by rw [child, hf], hdeletes.mp hall⟩
  · rename_i hfile
    split_ifs at h with hnone
    · cases h
      exact .inl ⟨rfl, by rw [child, hnone.1], hdeletes.mp hnone.2⟩
    · have hno : acc.1.fileAt [name] = none := by
        rw [fileAt_single]
        split
        · rename_i f hf
          exact absurd hf (hfile f)
        · rfl
      obtain ⟨⟨c, emptied⟩, hc, hret⟩ := bind_eq_ok.mp h
      refine .inr ⟨c, emptied, hc, ?_⟩
      cases emptied with
      | true =>
        cases hret
        refine ⟨rfl, hfile, fun hnil hall => hnone ⟨hnil, hdeletes.mpr hall⟩, ?_, ?_,
          fun b hb => by rw [findEntry_removeEntry, if_neg hb]⟩
        · rw [child, findEntry_removeEntry, if_pos rfl, applyBatchTo_emptied hc]
        · rw [hno, fileAt_single, findEntry_removeEntry, if_pos rfl]
      | false =>
        cases hret
        refine ⟨rfl, hfile, fun hnil hall => hnone ⟨hnil, hdeletes.mpr hall⟩,
          child_upsertEntry _ _ _, ?_, fun b hb => by rw [findEntry_upsertEntry, if_neg hb]⟩
        rw [hno, fileAt_single, findEntry_upsertEntry, if_pos rfl]

section

variable
  (hrec : ∀ n edits r, applyBatchTo depth n edits = .ok r →
    ChangesIn (edits.map BatchEdit.parts) n r.1)
include hrec

theorem changesIn_applyChild (hname : name ∈ childNames edits)
    (h : applyChild (applyBatchTo depth) edits acc name = .ok acc') :
    ChangesIn ((childEdits edits name).map fun e => name :: e.parts) acc.1 acc'.1 := by
  obtain ⟨rfl, -, -⟩ | ⟨c, emptied, hc, -, -, -, hchild, hfile, hother⟩ := applyChild_cases h
  · exact ChangesIn.refl _ _
  · have hne : (childEdits edits name).map BatchEdit.parts ≠ [] := by
      simpa using mem_childNames.mp hname
    have hchanged : ChangesIn ((childEdits edits name).map BatchEdit.parts) (acc.1.child name)
        (acc'.1.child name) := by
      rw [hchild]
      exact hrec _ _ _ hc
    simpa only [map_map, Function.comp_def] using ChangesIn.cons hne hother hfile hchanged

theorem changesIn_applyChildren {names : List String}
    (hnames : ∀ name ∈ names, name ∈ childNames edits)
    (h : names.foldlM (applyChild (applyBatchTo depth) edits) acc = .ok acc') :
    ChangesIn (names.flatMap fun name => (childEdits edits name).map fun e => name :: e.parts)
      acc.1 acc'.1 := by
  induction names generalizing acc with
  | nil =>
    cases h
    exact ChangesIn.refl _ _
  | cons name names ih =>
    obtain ⟨m, hm, hrest⟩ := foldlM_cons_ok.mp h
    have hfirst := changesIn_applyChild hrec (hnames name mem_cons_self) hm
    exact hfirst.trans (ih (fun x hx => hnames x (mem_cons_of_mem name hx)) hrest)

end

theorem findEntry_applyLeaf {e : BatchEdit} (hname : e.parts ≠ [name])
    (h : applyLeaf acc e = .ok acc') :
    acc'.1.findEntry name = acc.1.findEntry name := by
  refine (changesIn_applyLeaf h).frame [name] fun q hq ho => ?_
  obtain ⟨rfl, a, ha⟩ := mem_leafPath hq
  rw [ha] at ho hname
  exact hname (congrArg (fun a => [a]) (overlaps_cons_cons.mp ho).1)

theorem findEntry_applyLeaves (hname : ∀ e ∈ edits, e.parts ≠ [name])
    (h : edits.foldlM applyLeaf acc = .ok acc') : acc'.1.findEntry name = acc.1.findEntry name :=
  foldlM_induction (fun m => m.1.findEntry name = acc.1.findEntry name)
    (fun _ e he _ hm hstep => (findEntry_applyLeaf (hname e he) hstep).trans hm) rfl h

/-- Only the turn of an edit of an entry changes the entry. -/
theorem leaf_turn {op : BatchOp} (hnodup : (edits.map BatchEdit.parts).Nodup)
    (he : ⟨op, [name]⟩ ∈ edits) (h : edits.foldlM applyLeaf acc = .ok acc') :
    ∃ m m', m.1.findEntry name = acc.1.findEntry name ∧ applyLeaf m ⟨op, [name]⟩ = .ok m' ∧
      acc'.1.findEntry name = m'.1.findEntry name :=
  foldlM_turn (fun m => m.1.findEntry name) (hnodup.of_map _)
    (fun _ hx hne _ _ => findEntry_applyLeaf fun hparts =>
      hne (inj_on_of_nodup_map hnodup hx he hparts)) he h

theorem findEntry_applyChild {b : String} (hb : name ≠ b)
    (h : applyChild (applyBatchTo depth) edits acc name = .ok acc') :
    acc'.1.findEntry b = acc.1.findEntry b := by
  obtain ⟨rfl, -, -⟩ | ⟨c, emptied, -, -, -, -, -, -, hother⟩ := applyChild_cases h
  · rfl
  · exact hother b hb

theorem findEntry_applyChildren {names : List String} {b : String} (hb : b ∉ names)
    (h : names.foldlM (applyChild (applyBatchTo depth) edits) acc = .ok acc') :
    acc'.1.findEntry b = acc.1.findEntry b :=
  foldlM_induction (fun m => m.1.findEntry b = acc.1.findEntry b)
    (fun _ _ hname _ hm hstep =>
      (findEntry_applyChild (ne_of_mem_of_not_mem hname hb) hstep).trans hm) rfl h

/-- Only the turn of a child changes it. -/
theorem child_turn (hname : name ∈ childNames edits)
    (h : (childNames edits).foldlM (applyChild (applyBatchTo depth) edits) acc = .ok acc') :
    ∃ m m', m.1.findEntry name = acc.1.findEntry name ∧
      applyChild (applyBatchTo depth) edits m name = .ok m' ∧
      acc'.1.findEntry name = m'.1.findEntry name :=
  foldlM_turn (fun m => m.1.findEntry name) (nodup_dedup _)
    (fun _ _ hne _ _ => findEntry_applyChild hne) hname h

variable {r : Node × Bool}

/-- **The frame of a batch**: it changes the tree at its paths. -/
theorem changesIn_applyBatchTo (h : applyBatchTo depth n edits = .ok r) :
    ChangesIn (edits.map BatchEdit.parts) n r.1 := by
  induction depth generalizing n edits r with
  | zero =>
    cases h
    exact ChangesIn.refl _ _
  | succ depth ih =>
    obtain ⟨acc, hleaves, hrest⟩ := bind_eq_ok.mp h
    obtain ⟨acc', hchildren, hret⟩ := bind_eq_ok.mp hrest
    cases hret
    have hfirst := changesIn_applyLeaves hleaves
    have hsecond := changesIn_applyChildren (fun _ _ _ hr => ih hr) (fun _ hx => hx) hchildren
    refine (hfirst.trans hsecond).mono fun p hp => ?_
    rcases mem_append.mp hp with hp | hp
    · obtain ⟨e, he, hpe⟩ := mem_flatMap.mp hp
      exact mem_map.mpr ⟨e, he, (mem_leafPath hpe).1.symm⟩
    · obtain ⟨name, -, hname⟩ := mem_flatMap.mp hp
      exact childPaths_subset edits name p hname

/-! ## What a batch leaves at its paths -/

/-- What an operation leaves at its path: the file, nothing, or a directory that is the one before
or empty. -/
def BatchOp.Effect (op : BatchOp) (p : List String) (n n' : Node) : Prop :=
  match op with
  | .upsert f => n'.getEntry p = some (.file f)
  | .delete => ∀ q, n'.getEntry (p ++ q) = none
  | .mkdir => (∃ c, n.getEntry p = some (.directory c) ∧ n'.getEntry p = some (.directory c)) ∨
      n.getEntry p = none ∧ n'.getEntry p = some (.directory .nil)

variable {n' m m' : Node} {op : BatchOp}

theorem BatchOp.Effect.congr (h : op.Effect p n n')
    (hn : m.getEntry p = n.getEntry p) (hn' : ∀ q, m'.getEntry (p ++ q) = n'.getEntry (p ++ q)) :
    op.Effect p m m' := by
  have hroot : m'.getEntry p = n'.getEntry p := by simpa using hn' []
  cases op with
  | upsert => exact hroot.trans h
  | delete => exact fun q => (hn' q).trans (h q)
  | mkdir =>
    rcases h with ⟨c, hc, hc'⟩ | ⟨hnone, hc'⟩
    · exact .inl ⟨c, hn.trans hc, hroot.trans hc'⟩
    · exact .inr ⟨hn.trans hnone, hroot.trans hc'⟩

theorem BatchOp.Effect.cons {b : String} (h : op.Effect (b :: p) (n.child name) (n'.child name)) :
    op.Effect (name :: b :: p) n n' := by
  cases op with
  | upsert => exact (getEntry_child _ _ _ _).trans h
  | delete => exact fun q => (getEntry_child _ _ _ _).trans (h q)
  | mkdir =>
    rw [BatchOp.Effect, getEntry_child, getEntry_child]
    exact h

variable {ps : List (List String)}

/-- What overlaps nothing of a list of changed paths reads alike, and so does what lies under it. -/
theorem Node.ChangesIn.under (h : ChangesIn ps n n') (hp : ∀ q ∈ ps, ¬ Overlaps q p)
    (r : List String) :
    n'.getEntry (p ++ r) = n.getEntry (p ++ r) :=
  h.frame _ fun q hq ho => hp q hq (ho.of_below (prefix_append p r))

theorem effect_applyLeaf {e : BatchEdit} (hparts : e.parts = [name])
    (h : applyLeaf acc e = .ok acc') :
    e.op.Effect [name] acc.1 acc'.1 := by
  obtain ⟨op, parts⟩ := e
  subst hparts
  cases op with
  | upsert =>
    cases h
    rw [BatchOp.Effect, getEntry_cons, findEntry_upsertEntry, if_pos rfl]
    rfl
  | delete =>
    intro q
    rw [singleton_append, getEntry_cons]
    simp only [applyLeaf] at h
    split at h
    · cases h
      rw [findEntry_removeEntry, if_pos rfl, Option.bind_none]
    · rename_i hnone
      cases h
      rw [hnone, Option.bind_none]
  | mkdir =>
    simp only [applyLeaf] at h
    split at h
    · cases h
    · rename_i c hc
      cases h
      exact .inl ⟨c, by rw [getEntry_cons, hc]; rfl, by rw [getEntry_cons, hc]; rfl⟩
    · rename_i hnone
      cases h
      refine .inr ⟨by rw [getEntry_cons, hnone]; rfl, ?_⟩
      rw [getEntry_cons, findEntry_upsertEntry, if_pos rfl]
      rfl

/-- No path of the list overlaps another one. -/
def Apart (ps : List (List String)) : Prop := ps.Pairwise fun p q => ¬ Overlaps p q

theorem Apart.nodup (h : Apart ps) : ps.Nodup :=
  List.Pairwise.imp (fun {p q} hpq (heq : p = q) => hpq (heq ▸ overlaps_self p)) h

theorem Apart.forall (h : Apart ps) {q : List String} (hp : p ∈ ps) (hq : q ∈ ps) (hne : p ≠ q) :
    ¬ Overlaps p q :=
  have : Std.Symm fun p q : List String => ¬ Overlaps p q := ⟨fun _ _ hxy ho => hxy ho.symm⟩
  List.Pairwise.forall h hp hq hne

/-- A relation between the paths of a batch, in order, holds between those of a child's edits. -/
theorem pairwise_childEdits {R : List String → List String → Prop}
    (h : (edits.map BatchEdit.parts).Pairwise R) (name : String) :
    (childEdits edits name).Pairwise fun d e => R (name :: d.parts) (name :: e.parts) := by
  rw [pairwise_map] at h
  -- an edit of the child is one of the batch without the name
  have hchild : ∀ {e d : BatchEdit}, (match e.parts with
      | a :: b :: rest => if a = name then some (⟨e.op, b :: rest⟩ : BatchEdit) else none
      | _ => none) = some d → e.parts = name :: d.parts := by
    intro e d hd
    split at hd
    · rename_i a b rest hparts
      split_ifs at hd with ha
      cases hd
      rw [hparts, ha]
    · cases hd
  refine List.Pairwise.filterMap _ (fun e e' hee d hd d' hd' => ?_) h
  rw [hchild hd, hchild hd'] at hee
  exact hee

theorem Apart.childEdits (h : Apart (edits.map BatchEdit.parts)) (name : String) :
    Apart ((childEdits edits name).map BatchEdit.parts) := by
  rw [Apart, pairwise_map]
  refine (pairwise_childEdits h name).imp fun hab ho => hab ?_
  exact overlaps_cons_cons.mpr ⟨rfl, ho⟩

/-- A name with edits below it is not the name of an edited entry. -/
theorem Apart.parts_ne (h : Apart (edits.map BatchEdit.parts)) (hname : name ∈ childNames edits) :
    ∀ e ∈ edits, e.parts ≠ [name] := by
  intro e he hparts
  obtain ⟨d, hd⟩ := exists_mem_of_ne_nil _ (mem_childNames.mp hname)
  obtain ⟨hne, hmem⟩ := mem_childEdits.mp hd
  refine h.forall (mem_map_of_mem he) (mem_map_of_mem hmem) ?_ ?_
  · rw [hparts]
    exact fun heq => hne (cons_eq_cons.mp heq).2.symm
  · rw [hparts]
    exact .inl (prefix_append [name] _)

/-- **What a batch leaves at its paths**, when none of them overlaps another one. -/
theorem effect_applyBatchTo (hapart : Apart (edits.map BatchEdit.parts))
    (hparts : ∀ e ∈ edits, e.parts ≠ [] ∧ e.parts.length ≤ depth)
    (h : applyBatchTo depth n edits = .ok r) :
    ∀ e ∈ edits, e.op.Effect e.parts n r.1 := by
  induction depth generalizing n edits r with
  | zero =>
    intro e he
    have := hparts e he
    exact absurd (length_eq_zero_iff.mp (Nat.le_zero.mp this.2)) this.1
  | succ depth ih =>
    intro e he
    obtain ⟨acc, hleaves, hrest⟩ := bind_eq_ok.mp h
    obtain ⟨acc', hchildren, hret⟩ := bind_eq_ok.mp hrest
    cases hret
    obtain ⟨op, parts⟩ := e
    match parts, he with
    | [], he => exact absurd rfl (hparts _ he).1
    | [name], he =>
      obtain ⟨m, m', hbefore, hm, hafter⟩ := leaf_turn hapart.nodup he hleaves
      have hname : name ∉ childNames edits := fun hname => hapart.parts_ne hname _ he rfl
      refine (effect_applyLeaf rfl hm).congr (getEntry_congr hbefore.symm []) fun q => ?_
      exact getEntry_congr ((findEntry_applyChildren hname hchildren).trans hafter) q
    | name :: b :: rest, he =>
      have hmem : (⟨op, b :: rest⟩ : BatchEdit) ∈ childEdits edits name :=
        mem_childEdits.mpr ⟨cons_ne_nil _ _, he⟩
      have hname : name ∈ childNames edits := mem_childNames.mpr (ne_nil_of_mem hmem)
      obtain ⟨m, m', hbefore, hm, hafter⟩ := child_turn hname hchildren
      have hleaf := findEntry_applyLeaves (hapart.parts_ne hname) hleaves
      have hturn : op.Effect (name :: b :: rest) m.1 m'.1 := by
        obtain ⟨rfl, hnil, hdelete⟩ | ⟨c, emptied, hc, -, -, -, hchild, -, -⟩ := applyChild_cases hm
        · have hop : op = .delete := hdelete _ hmem
          subst hop
          intro q
          rw [cons_append, cons_append, getEntry_child, hnil, getEntry_nil_cons]
        · refine BatchOp.Effect.cons ?_
          rw [hchild]
          refine ih (hapart.childEdits name) (fun d hd => ?_) hc _ hmem
          obtain ⟨hne, hd'⟩ := mem_childEdits.mp hd
          exact ⟨hne, Nat.le_of_succ_le_succ (hparts _ hd').2⟩
      exact hturn.congr (getEntry_congr (hbefore.trans hleaf).symm _) fun q => getEntry_congr hafter _

/-! ## One edit after the other -/

namespace Edit

/-- The edit loses no error on the tree: where it goes as far as setting an entry, that succeeds. -/
def Lands (n : Node) : TreeEdit → Prop
  | rename old p => ∀ e, n.entryAt (splitPath old) = some e →
      ∃ n', (n.deletePath (splitPath old)).1.setEntry (splitPath p) e = .ok n'
  | copy old p => ∀ e, n.entryAt (splitPath old) = some e →
      ∃ n', n.setEntry (splitPath p) e = .ok n'
  | _ => True

/-- What an edit leaves at the paths it changes. -/
def Effect (n n' : Node) : TreeEdit → Prop
  | upsert p f => BatchOp.Effect (.upsert f) (splitPath p) n n'
  | delete p => BatchOp.Effect .delete (splitPath p) n n'
  | mkdir p => BatchOp.Effect .mkdir (splitPath p) n n'
  | rename old p => ∃ e, n.getEntry (splitPath old) = some e ∧
      (∀ q, n'.getEntry (splitPath p ++ q) = e.under q) ∧
      ∀ q, n'.getEntry (splitPath old ++ q) = none
  | copy old p => ∃ e, n.getEntry (splitPath old) = some e ∧
      ∀ q, n'.getEntry (splitPath p ++ q) = e.under q

theorem getEntry_of_entryAt {p : List String} {e : Entry} (h : n.entryAt p = some e) :
    p ≠ [] ∧ n.getEntry p = some e := by
  have hp : p ≠ [] := by
    rintro rfl
    cases h
  exact ⟨hp, by rw [getEntry, if_neg hp, h]⟩

variable {e : TreeEdit}

theorem apply_spec (hlands : e.Lands n) (h : e.apply n = .ok n') :
    ChangesIn (e.writes.map splitPath) n n' ∧
      (Apart (e.writes.map splitPath) → (∀ p ∈ e.writes, splitPath p ≠ []) → e.Effect n n') := by
  cases e with
  | upsert =>
    have hfile := getEntry_setAt h []
    rw [append_nil] at hfile
    exact ⟨changesIn_setAt h, fun _ _ => hfile⟩
  | delete p =>
    cases h
    exact ⟨changesIn_deletePath _ _, fun _ hne => getEntry_deletePath n (hne p mem_cons_self)⟩
  | mkdir => exact ⟨changesIn_setDirectory h, fun _ _ => getEntry_setDirectory h⟩
  | rename old p =>
    simp only [apply] at h
    split at h
    · cases h
    · rename_i e he
      obtain ⟨m, hm⟩ := hlands e he
      rw [hm] at h
      cases h
      have hset := changesIn_setAt hm
      refine ⟨((changesIn_deletePath n (splitPath old)).trans hset).mono (by simp [writes]),
        fun hapart _ => ⟨e, (getEntry_of_entryAt he).2, getEntry_setAt hm, fun q => ?_⟩⟩
      have hold : ¬ Overlaps (splitPath p) (splitPath old) := by
        simpa [writes, Apart] using hapart
      rw [ignoringError, hset.under (fun x hx => by rwa [mem_singleton.mp hx]) q]
      exact getEntry_deletePath n (getEntry_of_entryAt he).1 q
  | copy old p =>
    simp only [apply] at h
    split at h
    · cases h
    · rename_i e he
      obtain ⟨m, hm⟩ := hlands e he
      rw [hm] at h
      cases h
      exact ⟨changesIn_setAt hm, fun _ _ => ⟨e, (getEntry_of_entryAt he).2, getEntry_setAt hm⟩⟩

/-- The effect of an edit only reads the tree before at the edit's paths, and the tree after at the
paths it changes and below. -/
theorem Effect.congr (h : e.Effect n n')
    (hn : ∀ p ∈ e.writes ++ e.reads, m.getEntry (splitPath p) = n.getEntry (splitPath p))
    (hn' : ∀ p ∈ e.writes, ∀ q, m'.getEntry (splitPath p ++ q) = n'.getEntry (splitPath p ++ q)) :
    e.Effect m m' := by
  cases e with
  | upsert p | delete p | mkdir p =>
    rw [Effect] at h ⊢
    exact h.congr (hn p mem_cons_self) (hn' p mem_cons_self)
  | rename old p =>
    obtain ⟨e, he, hnew, hold⟩ := h
    refine ⟨e, (hn old (by simp [writes])).trans he, fun q => ?_, fun q => ?_⟩
    · exact (hn' p (by simp [writes]) q).trans (hnew q)
    · exact (hn' old (by simp [writes]) q).trans (hold q)
  | copy old p =>
    obtain ⟨e, he, hnew⟩ := h
    refine ⟨e, (hn old (by simp [reads])).trans he, fun q => ?_⟩
    exact (hn' p (by simp [writes, path]) q).trans (hnew q)

end Edit

/-- All paths an edit list changes, as the tree store splits them. -/
def writtenParts (edits : List TreeEdit) : List (List String) :=
  (edits.flatMap Edit.writes).map splitPath

/-- No edit of the list loses an error when the list is applied one by one. -/
def EditsLand : Node → List TreeEdit → Prop
  | _, [] => True
  | n, e :: rest => e.Lands n ∧ ∀ n', e.apply n = .ok n' → EditsLand n' rest

theorem writtenParts_cons (e : TreeEdit) (edits : List TreeEdit) :
    writtenParts (e :: edits) = e.writes.map splitPath ++ writtenParts edits := by
  simp [writtenParts]

theorem writtenParts_subset_cons (e : TreeEdit) (edits : List TreeEdit) :
    writtenParts edits ⊆ writtenParts (e :: edits) := by
  rw [writtenParts_cons]
  exact subset_append_right _ _

variable {edits : List TreeEdit}

theorem changesIn_applyEditsSequential (hland : EditsLand n edits)
    (h : applyEditsSequential n edits = .ok n') : ChangesIn (writtenParts edits) n n' := by
  induction edits generalizing n with
  | nil =>
    cases h
    exact ChangesIn.refl _ _
  | cons e edits ih =>
    obtain ⟨m, hm, hrest⟩ := foldlM_cons_ok.mp h
    rw [writtenParts_cons]
    exact (Edit.apply_spec hland.1 hm).1.trans (ih (hland.2 m hm) hrest)

variable {e : TreeEdit}

theorem mem_writtenParts (he : e ∈ edits) {p : Path} (hp : p ∈ e.writes) :
    splitPath p ∈ writtenParts edits :=
  mem_map_of_mem (mem_flatMap.mpr ⟨e, he, hp⟩)

/-- Where an edit puts an entry of the tree. -/
def Edit.destinations {φ : Type} : Edit φ → List Path
  | rename _ p | copy _ p => [p]
  | _ => []

/-- Edits of which none is under another, and whose renames and copies end where no file stands
above. -/
structure Unnested (n : Node) (edits : List TreeEdit) : Prop where
  nonroot : ∀ p ∈ writtenParts edits, p ≠ []
  apart : ∀ p ∈ writtenParts edits, ∀ q ∈ writtenParts edits, p <+: q → p = q
  above : ∀ e ∈ edits, ∀ p ∈ e.destinations, ∀ q, q <+: splitPath p → q ≠ splitPath p →
    n.fileAt q = none

namespace Unnested

theorem not_prefix (h : Unnested n edits) {p q x : List String} (hp : p ∈ writtenParts edits)
    (hq : q <+: p) (hne : q ≠ p) (hx : x ∈ writtenParts edits) : ¬ x <+: q := by
  intro hxq
  obtain rfl := h.apart x hx p hp (hxq.trans hq)
  exact hne (hq.eq_of_length_le hxq.length_le)

theorem destination_mem (he : e ∈ edits) {p : Path} (hp : p ∈ e.destinations) :
    splitPath p ∈ writtenParts edits := by
  refine mem_writtenParts he ?_
  cases e <;> simp_all [Edit.destinations, Edit.writes, Edit.path]

theorem lands (h : Unnested n edits) (he : e ∈ edits) : e.Lands n := by
  cases e with
  | upsert | delete | mkdir => trivial
  | rename old p =>
    intro entry _
    have hdest : p ∈ Edit.destinations (.rename old p : TreeEdit) := mem_singleton_self p
    have hp := destination_mem he hdest
    refine exists_setAt _ entry (h.nonroot _ hp) fun q hq hne => ?_
    rw [(changesIn_deletePath n (splitPath old)).files q fun x hx => ?_]
    · exact h.above _ he p hdest q hq hne
    · rw [mem_singleton.mp hx]
      exact h.not_prefix hp hq hne (mem_writtenParts he (by simp [Edit.writes]))
  | copy old p =>
    intro entry _
    have hdest : p ∈ Edit.destinations (.copy old p : TreeEdit) := mem_singleton_self p
    exact exists_setAt _ entry (h.nonroot _ (destination_mem he hdest)) (h.above _ he p hdest)

theorem tail (h : Unnested n (e :: edits)) (hm : e.apply n = .ok n') : Unnested n' edits := by
  have hsub := writtenParts_subset_cons e edits
  refine ⟨fun p hp => h.nonroot p (hsub hp), fun p hp q hq => h.apart p (hsub hp) q (hsub hq), ?_⟩
  intro d hd p hp q hq hne
  rw [(Edit.apply_spec (h.lands mem_cons_self) hm).1.files q fun x hx => ?_]
  · exact h.above d (mem_cons_of_mem e hd) p hp q hq hne
  · refine h.not_prefix (hsub (destination_mem hd hp)) hq hne ?_
    rw [writtenParts_cons]
    exact mem_append_left _ hx

theorem editsLand (h : Unnested n edits) : EditsLand n edits := by
  induction edits generalizing n with
  | nil => trivial
  | cons e edits ih => exact ⟨h.lands mem_cons_self, fun m hm => ih (h.tail hm)⟩

end Unnested

/-- **Separate edits** on a tree: no path they change overlaps another one or the source of a copy,
and no file stands above a path they change. -/
structure Separate (n : Node) (edits : List TreeEdit) : Prop where
  apart : Apart (writtenParts edits)
  nonroot : ∀ p ∈ writtenParts edits, p ≠ []
  sources : ∀ e ∈ edits, ∀ old ∈ e.reads, ∀ p ∈ writtenParts edits, ¬ Overlaps p (splitPath old)
  above : ∀ p ∈ writtenParts edits, ∀ q, q <+: p → q ≠ p → n.fileAt q = none

theorem Separate.head_apart (h : Separate n (e :: edits)) :
    Apart (e.writes.map splitPath) ∧
      ∀ p ∈ e.writes.map splitPath, ∀ q ∈ writtenParts edits, ¬ Overlaps p q := by
  have hapart := h.apart
  rw [writtenParts_cons] at hapart
  obtain ⟨hhead, -, hcross⟩ := pairwise_append.mp hapart
  exact ⟨hhead, hcross⟩

theorem Separate.unnested (h : Separate n edits) : Unnested n edits where
  nonroot := h.nonroot
  apart p hp q hq hpq := by
    by_contra hne
    exact h.apart.forall hp hq hne (.inl hpq)
  above _ he _ hp := h.above _ (Unnested.destination_mem he hp)

theorem Separate.lands (h : Separate n (e :: edits)) : e.Lands n := h.unnested.lands mem_cons_self

theorem Separate.tail (h : Separate n (e :: edits)) (hm : e.apply n = .ok m) :
    Separate m edits := by
  have hsub := writtenParts_subset_cons e edits
  refine ⟨?_, fun p hp => h.nonroot p (hsub hp), fun d hd old hold p hp =>
    h.sources d (mem_cons_of_mem e hd) old hold p (hsub hp), fun p hp q hq hne => ?_⟩
  · have hapart := h.apart
    rw [writtenParts_cons] at hapart
    exact (pairwise_append.mp hapart).2.1
  · rw [(Edit.apply_spec h.lands hm).1.files q fun x hx hxq => ?_]
    · exact h.above p (hsub hp) q hq hne
    · exact h.head_apart.2 x hx p hp (.inl (hxq.trans hq))

theorem effect_applyEditsSequential (hsep : Separate n edits)
    (h : applyEditsSequential n edits = .ok n') : ∀ e ∈ edits, e.Effect n n' := by
  induction edits generalizing n with
  | nil =>
    intro e he
    cases he
  | cons e edits ih =>
    obtain ⟨m, hm, hrest⟩ := foldlM_cons_ok.mp h
    obtain ⟨hfirst, heffect⟩ := Edit.apply_spec hsep.lands hm
    have hlater := changesIn_applyEditsSequential (hsep.tail hm).unnested.editsLand hrest
    intro d hd
    rcases mem_cons.mp hd with rfl | hd
    · have heffect := heffect hsep.head_apart.1 fun p hp =>
        hsep.nonroot _ (mem_writtenParts mem_cons_self hp)
      refine heffect.congr (fun _ _ => rfl) fun p hp q => ?_
      exact hlater.under (fun x hx ho =>
        hsep.head_apart.2 _ (mem_map_of_mem hp) x hx ho.symm) q
    · refine (ih (hsep.tail hm) hrest d hd).congr (fun p hp => ?_) fun _ _ _ => rfl
      -- the first edit changes neither what a later one changes nor what it copies
      refine (hfirst.frame _ fun x hx ho => ?_).symm
      rcases mem_append.mp hp with hp | hp
      · exact hsep.head_apart.2 x hx _ (mem_writtenParts hd hp) ho
      · refine hsep.sources d (mem_cons_of_mem e hd) p hp x ?_ ho
        rw [writtenParts_cons]
        exact mem_append_left _ hx

/-! ## Edit sets -/

theorem toBatch_cases {b : BatchEdit} (h : e.toBatch = .ok b) :
    ∃ p, (∃ f, e = .upsert p f ∧ b = ⟨.upsert f, splitPath p⟩) ∨
      (e = .delete p ∧ b = ⟨.delete, splitPath p⟩) ∨
        (e = .mkdir p ∧ b = ⟨.mkdir, splitPath p⟩) := by
  cases e with
  | upsert p f =>
    simp only [Edit.toBatch] at h
    split_ifs at h
    cases h
    exact ⟨p, .inl ⟨f, rfl, rfl⟩⟩
  | delete p =>
    cases h
    exact ⟨p, .inr (.inl ⟨rfl, rfl⟩)⟩
  | mkdir p =>
    simp only [Edit.toBatch] at h
    split_ifs at h
    cases h
    exact ⟨p, .inr (.inr ⟨rfl, rfl⟩)⟩
  | rename old p | copy old p =>
    simp only [Edit.toBatch] at h
    split_ifs at h

theorem toBatch_ok {b : BatchEdit} (h : e.toBatch = .ok b) :
    e.writes.map splitPath = [b.parts] ∧ ∀ n n', b.op.Effect b.parts n n' → e.Effect n n' := by
  obtain ⟨p, ⟨f, rfl, rfl⟩ | ⟨rfl, rfl⟩ | ⟨rfl, rfl⟩⟩ :=
    toBatch_cases h <;> exact ⟨rfl, fun _ _ hb => hb⟩

variable {ops : List BatchEdit}

theorem writtenParts_of_toBatch (h : List.Forall₂ (fun e b => Edit.toBatch e = .ok b) edits ops) :
    writtenParts edits = ops.map BatchEdit.parts := by
  induction h with
  | nil => rfl
  | cons hb _ ih => rw [writtenParts_cons, (toBatch_ok hb).1, ih, map_cons, singleton_append]

theorem effect_of_batch (hapart : Apart (writtenParts edits))
    (hnonroot : ∀ p ∈ writtenParts edits, p ≠ [])
    (hops : List.Forall₂ (fun e b => Edit.toBatch e = .ok b) edits ops)
    (hr : applyBatch n ops = .ok r) :
    ∀ e ∈ edits, e.Effect n r.1 := by
  have hparts := writtenParts_of_toBatch hops
  rw [hparts] at hapart
  have heffect := effect_applyBatchTo hapart (fun b hb => ?_) hr
  · intro e he
    obtain ⟨b, hb, hbatch⟩ := exists_left_of_forall₂ hops.flip he
    exact (toBatch_ok hbatch).2 _ _ (heffect b hb)
  · have hmem : b.parts ∈ ops.map BatchEdit.parts := mem_map_of_mem hb
    exact ⟨hnonroot _ (hparts ▸ hmem), le_max_of_le (mem_map_of_mem hb) le_rfl⟩

section

variable (h : applyEditSet n edits = .ok n')
include h

theorem applyEditSet_cases :
    (∃ ops r, canApplyEditsInBatch edits = true ∧
        List.Forall₂ (fun e b => Edit.toBatch e = .ok b) edits ops ∧
          applyBatch n ops = .ok r ∧ n' = r.1) ∨
      applyEditsSequential n edits = .ok n' := by
  rw [applyEditSet] at h
  split at h
  · rename_i hnil
    subst hnil
    exact .inr h
  · split at h
    · rename_i hcan
      obtain ⟨ops, hops, hrest⟩ := bind_eq_ok.mp h
      obtain ⟨r, hr, hret⟩ := bind_eq_ok.mp hrest
      cases hret
      exact .inl ⟨ops, r, hcan, forall₂_of_mapM hops, hr, rfl⟩
    · exact .inr h

/-- **The frame of an edit set** that loses no error: it changes the tree at the paths it writes. -/
theorem applyEditSet_changesIn (hland : EditsLand n edits) :
    ChangesIn (writtenParts edits) n n' := by
  obtain ⟨ops, r, -, hops, hr, rfl⟩ | hseq := applyEditSet_cases h
  · rw [writtenParts_of_toBatch hops]
    exact changesIn_applyBatchTo hr
  · exact changesIn_applyEditsSequential hland hseq

/-- **What separate edits leave at their paths.** -/
theorem applyEditSet_effect (hsep : Separate n edits) : ∀ e ∈ edits, e.Effect n n' := by
  obtain ⟨ops, r, -, hops, hr, rfl⟩ | hseq := applyEditSet_cases h
  · exact effect_of_batch hsep.apart hsep.nonroot hops hr
  · exact effect_applyEditsSequential hsep hseq

end

end GitSlice
