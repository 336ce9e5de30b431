import GitSlice.Library.Except
import GitSlice.Paths

/-! # Tree nodes
The nodes of `internal/treestore`. A tree is content-addressed: its id is the hash of its entries,
and a directory entry holds the id of its child. Hashes are taken to be injective, so a tree id is
modelled by the tree itself, and a directory entry holds the child node. A node keeps its entries
sorted by name; `Node` is that list with the two kinds of entries as its constructors, which makes
every function on trees structurally recursive and equality of trees (hence of tree ids) decidable.

The operations are those of `tree_nodes.go`, `tree_read.go` and `tree_set.go`. What they do is said
through `Node.getEntry`: `Node.ChangesIn` is the frame of changes at some paths, and every writer
has it. -/

namespace GitSlice

open List

/-- The file metadata of a tree entry: `treestore.FileEntry` without its path. -/
structure FileEntry where
  /-- The file mode. -/
  mode : Nat
  /-- The id of the blob that holds the content. -/
  blobId : String
  contentHash : String
  /-- The size of the content in bytes. -/
  size : Nat
deriving DecidableEq

/-- A **tree node**: its entries in the order of their names. -/
inductive Node where
  /-- The node without entries: the empty root. -/
  | nil
  /-- A file entry before the other entries. -/
  | file (name : String) (entry : FileEntry) (rest : Node)
  /-- A directory entry before the other entries. -/
  | directory (name : String) (child : Node) (rest : Node)
deriving DecidableEq

/-- What a node holds under a name. -/
inductive Entry where
  /-- A file. -/
  | file (entry : FileEntry)
  /-- A directory and its node. -/
  | directory (child : Node)
deriving DecidableEq

/-- The errors of the tree store. -/
inductive TreeError where
  /-- `treestore.ErrNotFound`. -/
  | notFound
  /-- Any other error, with its message. -/
  | failed (message : String)
deriving DecidableEq

namespace Node

/-! ## The entries of one node -/

/-- The node with one more entry in front. -/
def cons (name : String) : Entry → Node → Node
  | .file f, rest => .file name f rest
  | .directory c, rest => .directory name c rest

/-- `len(node.Entries) == 0`. -/
def isEmpty : Node → Bool
  | .nil => true
  | _ => false

/-- The entry of a name. -/
def findEntry : Node → String → Option Entry
  | .nil, _ => none
  | .file n f rest, name => if n = name then some (.file f) else rest.findEntry name
  | .directory n c rest, name => if n = name then some (.directory c) else rest.findEntry name

/-- `upsertEntry`: replace the entry of that name, or insert it where the order of the names has
it. -/
def upsertEntry : Node → String → Entry → Node
  | .nil, name, e => cons name e .nil
  | .file n f rest, name, e =>
    if n = name then cons name e rest
    else if name < n then cons name e (.file n f rest)
    else .file n f (rest.upsertEntry name e)
  | .directory n c rest, name, e =>
    if n = name then cons name e rest
    else if name < n then cons name e (.directory n c rest)
    else .directory n c (rest.upsertEntry name e)

/-- The node without a name. -/
def removeEntry : Node → String → Node
  | .nil, _ => .nil
  | .file n f rest, name => if n = name then rest.removeEntry name else .file n f (rest.removeEntry name)
  | .directory n c rest, name =>
    if n = name then rest.removeEntry name else .directory n c (rest.removeEntry name)

@[simp] theorem findEntry_nil (name : String) : Node.nil.findEntry name = none := rfl

@[simp] theorem findEntry_cons (a : String) (e : Entry) (n : Node) (b : String) :
    (cons a e n).findEntry b = if a = b then some e else n.findEntry b := by
  cases e <;> rfl

theorem findEntry_upsertEntry (n : Node) (a : String) (e : Entry) (b : String) :
    (n.upsertEntry a e).findEntry b = if a = b then some e else n.findEntry b := by
  induction n with
  | nil => simp [upsertEntry]
  | file m f rest ih | directory m f rest _ ih =>
    rw [upsertEntry]
    by_cases hm : m = a
    · subst hm
      rw [if_pos rfl, findEntry_cons, findEntry]
      split <;> rfl
    · rw [if_neg hm]
      by_cases hlt : a < m
      · rw [if_pos hlt, findEntry_cons]
      · rw [if_neg hlt, findEntry, ih, findEntry]
        by_cases hb : m = b
        · subst hb
          rw [if_pos rfl, if_neg (Ne.symm hm), if_pos rfl]
        · rw [if_neg hb, if_neg hb]

theorem findEntry_removeEntry (n : Node) (a b : String) :
    (n.removeEntry a).findEntry b = if a = b then none else n.findEntry b := by
  induction n with
  | nil => simp [removeEntry]
  | file m f rest ih | directory m f rest _ ih =>
    rw [removeEntry]
    by_cases hm : m = a
    · subst hm
      rw [if_pos rfl, ih, findEntry]
      split <;> rfl
    · rw [if_neg hm, findEntry, ih, findEntry]
      by_cases hb : m = b
      · subst hb
        rw [if_pos rfl, if_neg (Ne.symm hm), if_pos rfl]
      · rw [if_neg hb, if_neg hb]

theorem eq_nil_of_isEmpty {n : Node} (h : n.isEmpty = true) : n = .nil := by
  cases n with
  | nil => rfl
  | file _ _ _ | directory _ _ _ => cases h

/-! ## Reading by path -/

/-- `entryAt`: the entry at a non-empty path. -/
def entryAt : Node → List String → Option Entry
  | _, [] => none
  | n, [a] => n.findEntry a
  | n, a :: b :: rest =>
    match n.findEntry a with
    | some (.directory c) => c.entryAt (b :: rest)
    | _ => none

/-- `GetEntry` on split paths: the root is a directory. -/
def getEntry (n : Node) (p : List String) : Option Entry :=
  if p = [] then some (.directory n) else n.entryAt p

/-- The file at a path (`GetFile`). -/
def fileAt (n : Node) (p : List String) : Option FileEntry :=
  match n.getEntry p with
  | some (.file f) => some f
  | _ => none

end Node

/-- What lies at a path under an entry. -/
def Entry.under : Entry → List String → Option Entry
  | .directory c, p => c.getEntry p
  | .file f, [] => some (.file f)
  | .file _, _ :: _ => none

namespace Node

@[simp] theorem getEntry_root (n : Node) : n.getEntry [] = some (.directory n) := rfl

theorem getEntry_cons (n : Node) (a : String) (p : List String) :
    n.getEntry (a :: p) = (n.findEntry a).bind (Entry.under · p) := by
  cases p with
  | nil =>
    cases h : n.findEntry a with
    | none => simpa [getEntry, entryAt] using h
    | some e => cases e <;> simpa [getEntry, entryAt, Entry.under] using h
  | cons b rest =>
    cases h : n.findEntry a with
    | none => simp [getEntry, entryAt, h]
    | some e => cases e <;> simp [getEntry, entryAt, h, Entry.under]

@[simp] theorem getEntry_nil_cons (a : String) (p : List String) :
    Node.nil.getEntry (a :: p) = none := by
  rw [getEntry_cons, findEntry_nil, Option.bind_none]

theorem under_append (e : Entry) (p q : List String) :
    e.under (p ++ q) = (e.under p).bind (Entry.under · q) := by
  induction p generalizing e with
  | nil => cases e <;> cases q <;> rfl
  | cons a p ih =>
    cases e with
    | file => rfl
    | directory c =>
      simp only [Entry.under, cons_append, getEntry_cons]
      cases c.findEntry a with
      | none => rfl
      | some e => exact ih e

theorem getEntry_append (n : Node) (p q : List String) :
    n.getEntry (p ++ q) = (n.getEntry p).bind (Entry.under · q) :=
  under_append (.directory n) p q

variable {n : Node} {p q : List String} {e : Entry}

theorem exists_directory_of_above (hp : p <+: q) (hne : p ≠ q) (h : n.getEntry q = some e) :
    ∃ c, n.getEntry p = some (.directory c) := by
  obtain ⟨r, rfl⟩ := hp
  rw [getEntry_append] at h
  obtain ⟨d, hd, hr⟩ := Option.bind_eq_some_iff.mp h
  cases d with
  | directory c => exact ⟨c, hd⟩
  | file =>
    cases r with
    | nil => exact absurd (append_nil p).symm hne
    | cons a r => cases hr

theorem fileAt_eq_some {f : FileEntry} : n.fileAt p = some f ↔ n.getEntry p = some (.file f) := by
  rw [fileAt]
  split
  · rename_i g hg
    rw [hg, Option.some.injEq, Option.some.injEq, Entry.file.injEq]
  · rename_i hg
    constructor
    · intro h; cases h
    · intro h; exact absurd h (hg f)

/-! ## Writing by path -/

/-- The node of the directory under a name, empty when there is none: the `childTreeID` of the
writers. -/
def child (n : Node) (a : String) : Node :=
  match n.findEntry a with
  | some (.directory c) => c
  | _ => .nil

/-- The recursion `setFile` and `setEntry` share: missing directories on the way are made, a file on
the way is an error. `required` is the message for the empty path. -/
def setAt (required : String) : Node → List String → Entry → Except TreeError Node
  | _, [], _ => .error (.failed required)
  | n, [a], e => .ok (n.upsertEntry a e)
  | n, a :: b :: rest, e =>
    match n.findEntry a with
    | some (.file _) => .error (.failed (a ++ " is not a directory"))
    | _ => do
      let c ← setAt required (n.child a) (b :: rest) e
      return n.upsertEntry a (.directory c)

/-- `setFile`: a file replaces whatever is at the path, a directory included. -/
def setFile (n : Node) (p : List String) (f : FileEntry) : Except TreeError Node :=
  setAt "file path is required" n p (.file f)

/-- Puts an entry at a path. -/
def setEntry (n : Node) (p : List String) (e : Entry) : Except TreeError Node :=
  setAt "path is required" n p e

/-- `setDirectory`: a directory that is there stays as it is. -/
def setDirectory : Node → List String → Except TreeError Node
  | _, [] => .error (.failed "directory path is required")
  | n, [a] =>
    match n.findEntry a with
    | some (.file _) => .error (.failed (a ++ " is not a directory"))
    | some (.directory _) => .ok n
    | none => .ok (n.upsertEntry a (.directory .nil))
  | n, a :: b :: rest =>
    match n.findEntry a with
    | some (.file _) => .error (.failed (a ++ " is not a directory"))
    | _ => do
      let c ← setDirectory (n.child a) (b :: rest)
      return n.upsertEntry a (.directory c)

/-- `deletePath`: the new node, and whether the delete left it empty. A directory that a delete
emptied is removed from its parent. -/
def deletePath : Node → List String → Node × Bool
  | n, [] => (n, false)
  | n, [a] =>
    match n.findEntry a with
    | none => (n, false)
    | some _ => (n.removeEntry a, (n.removeEntry a).isEmpty)
  | n, a :: b :: rest =>
    match n.findEntry a with
    | some (.directory c) =>
      let deleted := deletePath c (b :: rest)
      let n' := if deleted.2 then n.removeEntry a else n.upsertEntry a (.directory deleted.1)
      (n', deleted.2 && n'.isEmpty)
    | _ => (n, false)

/-- A node differs from another one only by **changes at the paths `ps`**: what overlaps none of
them reads alike, and so does every file that is at none of them and under none of them. -/
structure ChangesIn (ps : List (List String)) (n n' : Node) : Prop where
  frame : ∀ q, (∀ p ∈ ps, ¬ Overlaps p q) → n'.getEntry q = n.getEntry q
  files : ∀ q, (∀ p ∈ ps, ¬ p <+: q) → n'.fileAt q = n.fileAt q

theorem ChangesIn.refl (ps : List (List String)) (n : Node) : ChangesIn ps n n :=
  ⟨fun _ _ => rfl, fun _ _ => rfl⟩

variable {ps qs : List (List String)} {n' : Node}

theorem ChangesIn.trans {m : Node} (h : ChangesIn ps n m) (h' : ChangesIn qs m n') :
    ChangesIn (ps ++ qs) n n' := by
  constructor
  · intro q hq
    rw [h'.frame q fun p hp => hq p (mem_append_right _ hp),
      h.frame q fun p hp => hq p (mem_append_left _ hp)]
  · intro q hq
    rw [h'.files q fun p hp => hq p (mem_append_right _ hp),
      h.files q fun p hp => hq p (mem_append_left _ hp)]

theorem ChangesIn.mono (hsub : ∀ p ∈ ps, p ∈ qs) (h : ChangesIn ps n n') :
    ChangesIn qs n n' :=
  ⟨fun q hq => h.frame q fun p hp => hq p (hsub p hp),
    fun q hq => h.files q fun p hp => hq p (hsub p hp)⟩

@[simp] theorem fileAt_root (n : Node) : n.fileAt [] = none := rfl

@[simp] theorem fileAt_nil (p : List String) : Node.nil.fileAt p = none := by
  cases p with
  | nil => rfl
  | cons a p => rw [fileAt, getEntry_nil_cons]

variable {a : String}

theorem getEntry_congr (h : n'.findEntry a = n.findEntry a) (p : List String) :
    n'.getEntry (a :: p) = n.getEntry (a :: p) := by
  rw [getEntry_cons, getEntry_cons, h]

theorem fileAt_congr (h : n'.getEntry p = n.getEntry p) : n'.fileAt p = n.fileAt p := by
  rw [fileAt, fileAt, h]

theorem child_congr (h : n'.findEntry a = n.findEntry a) : n'.child a = n.child a := by
  rw [child, child, h]

theorem getEntry_child (n : Node) (a b : String) (p : List String) :
    n.getEntry (a :: b :: p) = (n.child a).getEntry (b :: p) := by
  rw [getEntry_cons, child]
  cases n.findEntry a with
  | none => rw [Option.bind_none, getEntry_nil_cons]
  | some e =>
    cases e with
    | file => rw [getEntry_nil_cons]; rfl
    | directory => rfl

/-- A node whose other entries are kept has changed at the one segment. -/
theorem ChangesIn.single (hother : ∀ b, a ≠ b → n'.findEntry b = n.findEntry b) :
    ChangesIn [[a]] n n' := by
  have hsame : ∀ q, ¬ [a] <+: q → q ≠ [] → n'.getEntry q = n.getEntry q := by
    intro q hq hne
    cases q with
    | nil => exact absurd rfl hne
    | cons b q =>
      refine getEntry_congr (hother b ?_) q
      rintro rfl
      exact hq (cons_prefix_cons.mpr ⟨rfl, nil_prefix⟩)
  constructor
  · intro q hq
    have hq := hq [a] (mem_singleton_self _)
    refine hsame q (fun h => hq (.inl h)) ?_
    rintro rfl
    exact hq (overlaps_nil_right _)
  · intro q hq
    cases q with
    | nil => rfl
    | cons b q => exact fileAt_congr (hsame _ (hq [a] (mem_singleton_self _)) (cons_ne_nil _ _))

/-- A node whose other entries are kept, and whose child has changed at some paths, has changed at
those paths under the child's name. -/
theorem ChangesIn.cons (hps : ps ≠ []) (hother : ∀ b, a ≠ b → n'.findEntry b = n.findEntry b)
    (hfile : n'.fileAt [a] = n.fileAt [a]) (h : ChangesIn ps (n.child a) (n'.child a)) :
    ChangesIn (ps.map (a :: ·)) n n' := by
  have hmem : ∀ p ∈ ps, a :: p ∈ ps.map (a :: ·) := fun p hp => mem_map_of_mem hp
  obtain ⟨p₀, hp₀⟩ := exists_mem_of_ne_nil ps hps
  constructor
  · intro q hq
    match q with
    | [] => exact absurd (overlaps_nil_right _) (hq _ (hmem p₀ hp₀))
    | c :: q =>
      by_cases hc : a = c
      · subst hc
        have hq' : ∀ p ∈ ps, ¬ Overlaps p q := fun p hp ho =>
          hq _ (hmem p hp) (overlaps_cons_cons.mpr ⟨rfl, ho⟩)
        match q with
        | [] => exact absurd (overlaps_nil_right _) (hq' p₀ hp₀)
        | d :: q => rw [getEntry_child, getEntry_child, h.frame _ hq']
      · exact getEntry_congr (hother c hc) q
  · intro q hq
    match q with
    | [] => rfl
    | c :: q =>
      by_cases hc : a = c
      · subst hc
        match q with
        | [] => exact hfile
        | d :: q =>
          have hq' : ∀ p ∈ ps, ¬ p <+: (d :: q) := fun p hp ho =>
            hq _ (hmem p hp) (cons_prefix_cons.mpr ⟨rfl, ho⟩)
          have := h.files _ hq'
          rwa [fileAt, getEntry_child, fileAt, getEntry_child]
      · exact fileAt_congr (getEntry_congr (hother c hc) q)

theorem fileAt_single (n : Node) (a : String) :
    n.fileAt [a] = match n.findEntry a with
      | some (.file f) => some f
      | _ => none := by
  rw [fileAt, getEntry_cons]
  cases n.findEntry a with
  | none => rfl
  | some e => cases e <;> rfl

theorem child_upsertEntry (n : Node) (a : String) (c : Node) :
    (n.upsertEntry a (.directory c)).child a = c := by
  rw [child, findEntry_upsertEntry, if_pos rfl]

variable {c : Node}

/-- Writing a directory where there was no file changes the node at the paths its child changed. -/
theorem changesIn_upsertEntry (hps : ps ≠ []) (hfile : ∀ f, n.findEntry a ≠ some (.file f))
    (h : ChangesIn ps (n.child a) c) :
    ChangesIn (ps.map (a :: ·)) n (n.upsertEntry a (.directory c)) := by
  refine ChangesIn.cons hps (fun d hd => by rw [findEntry_upsertEntry, if_neg hd]) ?_ ?_
  · rw [fileAt_single, fileAt_single, findEntry_upsertEntry, if_pos rfl]
    cases hn : n.findEntry a with
    | none => rfl
    | some e =>
      cases e with
      | file f => exact absurd hn (hfile f)
      | directory => rfl
  · rwa [child_upsertEntry]

variable {required b : String}

theorem deletePath_cons_of_not_directory (h : ∀ c, n.findEntry a ≠ some (.directory c)) :
    deletePath n (a :: b :: p) = (n, false) := by
  rw [deletePath]
  split
  · rename_i c hc
    exact absurd hc (h c)
  · rfl

theorem setAt_cons (h : setAt required n (a :: b :: p) e = .ok n') :
    (∀ f, n.findEntry a ≠ some (.file f)) ∧
      ∃ c, setAt required (n.child a) (b :: p) e = .ok c ∧ n' = n.upsertEntry a (.directory c) := by
  rw [setAt] at h
  split at h
  · cases h
  · rename_i hfile
    obtain ⟨c, hset, h⟩ := Except.bind_eq_ok.mp h
    cases h
    exact ⟨hfile, c, hset, rfl⟩

section

variable (h : setAt required n p e = .ok n')
include h

theorem changesIn_setAt : ChangesIn [p] n n' := by
  induction p generalizing n n' with
  | nil => cases h
  | cons a p ih =>
    cases p with
    | nil =>
      cases h
      exact ChangesIn.single fun b hb => by rw [findEntry_upsertEntry, if_neg hb]
    | cons b p =>
      obtain ⟨hfile, c, hset, rfl⟩ := setAt_cons h
      exact changesIn_upsertEntry (cons_ne_nil _ _) hfile (ih hset)

theorem getEntry_setAt (q : List String) : n'.getEntry (p ++ q) = e.under q := by
  induction p generalizing n n' with
  | nil => cases h
  | cons a p ih =>
    cases p with
    | nil =>
      cases h
      rw [singleton_append, getEntry_cons, findEntry_upsertEntry, if_pos rfl]
      rfl
    | cons b p =>
      obtain ⟨-, c, hset, rfl⟩ := setAt_cons h
      rw [cons_append, cons_append, getEntry_child, child_upsertEntry]
      exact ih hset

theorem exists_directory_setAt (hq : q <+: p) (hne : q ≠ p) :
    ∃ c, n'.getEntry q = some (.directory c) := by
  have hp : n'.getEntry p = some e := by
    have := getEntry_setAt h []
    rw [append_nil] at this
    rw [this]
    cases e <;> rfl
  exact exists_directory_of_above hq hne hp

end

theorem fileAt_child (n : Node) (a : String) (hp : p ≠ []) :
    n.fileAt (a :: p) = (n.child a).fileAt p := by
  obtain ⟨b, p, rfl⟩ := exists_cons_of_ne_nil hp
  rw [fileAt, getEntry_child, fileAt]

theorem fileAt_child_eq_none (h : n.fileAt (a :: p) = none) : (n.child a).fileAt p = none := by
  by_cases hnil : p = []
  · rw [hnil, fileAt_root]
  · rw [← fileAt_child n a hnil, h]

theorem findEntry_ne_file (h : n.fileAt [a] = none) (f : FileEntry) :
    n.findEntry a ≠ some (.file f) := by
  intro hf
  rw [fileAt_single, hf] at h
  cases h

/-- A write succeeds where no file is above the path. -/
theorem exists_setAt (required : String) (e : Entry) (hp : p ≠ [])
    (habove : ∀ q, q <+: p → q ≠ p → n.fileAt q = none) : ∃ n', setAt required n p e = .ok n' := by
  induction p generalizing n with
  | nil => exact absurd rfl hp
  | cons a p ih =>
    cases p with
    | nil => exact ⟨_, rfl⟩
    | cons b p =>
      have hfile := findEntry_ne_file
        (habove [a] (cons_prefix_cons.mpr ⟨rfl, nil_prefix⟩) (by simp))
      have hbelow : ∀ q, q <+: b :: p → q ≠ b :: p → (n.child a).fileAt q = none := by
        intro q hq hne
        exact fileAt_child_eq_none (habove (a :: q) (cons_prefix_cons.mpr ⟨rfl, hq⟩) fun he =>
          hne (cons_eq_cons.mp he).2)
      obtain ⟨c, hc⟩ := ih (cons_ne_nil b p) hbelow
      refine ⟨n.upsertEntry a (.directory c), ?_⟩
      rw [setAt]
      split
      · rename_i f hf
        exact absurd hf (hfile f)
      · rw [hc]
        rfl

theorem setDirectory_cons (h : setDirectory n (a :: b :: p) = .ok n') :
    (∀ f, n.findEntry a ≠ some (.file f)) ∧
      ∃ c, setDirectory (n.child a) (b :: p) = .ok c ∧ n' = n.upsertEntry a (.directory c) := by
  rw [setDirectory] at h
  split at h
  · cases h
  · rename_i hfile
    obtain ⟨c, hset, h⟩ := Except.bind_eq_ok.mp h
    cases h
    exact ⟨hfile, c, hset, rfl⟩

theorem changesIn_setDirectory (h : setDirectory n p = .ok n') : ChangesIn [p] n n' := by
  induction p generalizing n n' with
  | nil => cases h
  | cons a p ih =>
    cases p with
    | nil =>
      rw [setDirectory] at h
      split at h
      · cases h
      · cases h
        exact ChangesIn.refl _ _
      · cases h
        exact ChangesIn.single fun b hb => by rw [findEntry_upsertEntry, if_neg hb]
    | cons b p =>
      obtain ⟨hfile, c, hset, rfl⟩ := setDirectory_cons h
      exact changesIn_upsertEntry (cons_ne_nil _ _) hfile (ih hset)

theorem getEntry_setDirectory (h : setDirectory n p = .ok n') :
    (∃ c, n.getEntry p = some (.directory c) ∧ n'.getEntry p = some (.directory c)) ∨
      n.getEntry p = none ∧ n'.getEntry p = some (.directory .nil) := by
  induction p generalizing n n' with
  | nil => cases h
  | cons a p ih =>
    cases p with
    | nil =>
      rw [setDirectory] at h
      split at h
      · cases h
      · rename_i c hc
        cases h
        exact .inl ⟨c, by rw [getEntry_cons, hc]; rfl, by rw [getEntry_cons, hc]; rfl⟩
      · rename_i hc
        cases h
        refine .inr ⟨by rw [getEntry_cons, hc]; rfl, ?_⟩
        rw [getEntry_cons, findEntry_upsertEntry, if_pos rfl]
        rfl
    | cons b p =>
      obtain ⟨-, c, hset, rfl⟩ := setDirectory_cons h
      rw [getEntry_child, getEntry_child, child_upsertEntry]
      exact ih hset

theorem deletePath_emptied (h : (deletePath n p).2 = true) : (deletePath n p).1 = .nil := by
  match p with
  | [] => cases h
  | [a] =>
    rw [deletePath] at h ⊢
    split at h
    · cases h
    · exact eq_nil_of_isEmpty h
  | a :: b :: rest =>
    rw [deletePath] at h ⊢
    split at h
    · exact eq_nil_of_isEmpty (Bool.and_eq_true_iff.mp h).2
    · cases h

theorem child_deletePath (hc : n.findEntry a = some (.directory c)) :
    (deletePath n (a :: b :: p)).1.child a = (deletePath c (b :: p)).1 := by
  rw [deletePath, hc]
  dsimp only
  split_ifs with he
  · rw [child, findEntry_removeEntry, if_pos rfl, deletePath_emptied he]
  · rw [child_upsertEntry]

theorem findEntry_deletePath_of_ne {d : String} (h : a ≠ d) :
    (deletePath n (a :: p)).1.findEntry d = n.findEntry d := by
  match p with
  | [] =>
    rw [deletePath]
    split
    · rfl
    · rw [findEntry_removeEntry, if_neg h]
  | b :: rest =>
    rw [deletePath]
    split
    · dsimp only
      split_ifs
      · rw [findEntry_removeEntry, if_neg h]
      · rw [findEntry_upsertEntry, if_neg h]
    · rfl

theorem changesIn_deletePath (n : Node) (p : List String) : ChangesIn [p] n (deletePath n p).1 := by
  induction p generalizing n with
  | nil => exact ChangesIn.refl _ _
  | cons a p ih =>
    cases p with
    | nil => exact ChangesIn.single fun b hb => findEntry_deletePath_of_ne hb
    | cons b p =>
      by_cases hdir : ∃ c, n.findEntry a = some (.directory c)
      · obtain ⟨c, hc⟩ := hdir
        refine ChangesIn.cons (cons_ne_nil (b :: p) [])
          (fun d hd => findEntry_deletePath_of_ne hd) ?_ ?_
        · -- neither a removed directory nor a rewritten one is a file
          rw [fileAt_single, fileAt_single, deletePath, hc]
          dsimp only
          split_ifs
          · rw [findEntry_removeEntry, if_pos rfl]
          · rw [findEntry_upsertEntry, if_pos rfl]
        · have hchild : n.child a = c := by rw [child, hc]
          rw [child_deletePath hc, hchild]
          exact ih c
      · rw [deletePath_cons_of_not_directory fun c hc => hdir ⟨c, hc⟩]
        exact ChangesIn.refl _ _

theorem getEntry_deletePath (n : Node) (hp : p ≠ []) (q : List String) :
    (deletePath n p).1.getEntry (p ++ q) = none := by
  induction p generalizing n with
  | nil => exact absurd rfl hp
  | cons a p ih =>
    cases p with
    | nil =>
      rw [singleton_append, getEntry_cons, deletePath]
      split
      · rename_i hn
        rw [hn, Option.bind_none]
      · rw [findEntry_removeEntry, if_pos rfl, Option.bind_none]
    | cons b p =>
      by_cases hdir : ∃ c, n.findEntry a = some (.directory c)
      · obtain ⟨c, hc⟩ := hdir
        rw [cons_append, cons_append, getEntry_child, child_deletePath hc]
        exact ih c (cons_ne_nil _ _)
      · rw [deletePath_cons_of_not_directory fun c hc => hdir ⟨c, hc⟩, cons_append,
          cons_append, getEntry_child]
        have hchild : n.child a = .nil := by
          rw [child]
          split
          · rename_i c hc
            exact absurd ⟨c, hc⟩ hdir
          · rfl
        rw [hchild, getEntry_nil_cons]

end Node

end GitSlice
