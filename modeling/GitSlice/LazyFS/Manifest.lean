import GitSlice.Library.Table
import GitSlice.TreeStore.Listing

/-! # The base layer of a lazy workspace
`internal/lazyfs` shows a workspace as a read-only base, the slice at a commit, under a local layer.
The base is a `Manifest`: the listing of the commit, in which every path lies in directories. Paths
are the clean absolute ones, as lists of segments; `/` is the empty list. -/

namespace GitSlice.LazyFS

open List Table

/-- The kinds of entries. -/
inductive Kind where
  /-- `KindFile`. -/
  | file
  /-- `KindDir`. -/
  | dir
  /-- `KindSymlink`. -/
  | symlink
deriving DecidableEq

/-- `ModeFile`. -/
def modeFile : Nat := 0o100644

/-- `ModeExecutable`. -/
def modeExecutable : Nat := 0o100755

/-- `ModeSymlink`. -/
def modeSymlink : Nat := 0o120000

/-- `ModeDir`. -/
def modeDir : Nat := 0o040000

/-- Git knows two modes of files. -/
def normalizeFileMode (mode : Nat) : Nat := if mode &&& 0o111 ≠ 0 then modeExecutable else modeFile

@[simp] theorem normalizeFileMode_idem (mode : Nat) :
    normalizeFileMode (normalizeFileMode mode) = normalizeFileMode mode := by
  unfold normalizeFileMode
  split_ifs <;> simp_all [modeFile, modeExecutable]

/-- `isUnder`: strictly below a directory. -/
def isUnder (p dir : Path) : Bool := contains dir p && p ≠ dir

variable {p : Path}

theorem isUnder_iff {dir : Path} : isUnder p dir = true ↔ dir <+: p ∧ p ≠ dir := by
  simp [isUnder]

/-- An entry of a manifest. -/
structure BaseEntry where
  kind : Kind
  mode : Nat
  size : Nat
  /-- `ContentHash`, of files and symlinks. -/
  contentHash : String
  /-- `Target`, of symlinks. -/
  target : String
deriving DecidableEq

/-- The mode `NewManifest` gives an entry. -/
def normalMode (kind : Kind) (mode : Nat) : Nat :=
  match kind with
  | .file => normalizeFileMode mode
  | .symlink => modeSymlink
  | .dir => modeDir

@[simp] theorem normalMode_idem (kind : Kind) (mode : Nat) :
    normalMode kind (normalMode kind mode) = normalMode kind mode := by
  cases kind <;> simp [normalMode]

/-- `Manifest`: a listing with a root, in which everything lies in a directory. -/
structure Manifest where
  commitID : String
  entries : Table Path BaseEntry
  root : ∃ e, entries.get [] = some e ∧ e.kind = .dir
  /-- What has a name lies in a directory. -/
  parents : ∀ d n, entries.get (d ++ [n]) ≠ none → ∃ e, entries.get d = some e ∧ e.kind = .dir
  modes : ∀ p e, entries.get p = some e → normalMode e.kind e.mode = e.mode

/-! ## Building a manifest -/

/-- A directory the listing left out. -/
def dirEntry : BaseEntry := ⟨.dir, modeDir, 0, "", ""⟩

/-- The inner loop of `NewManifest`, along the reversed path of the parent: the directories a path
needs are added, up to one that is there. -/
def addDirs (p : Path) (entries : Table Path BaseEntry) :
    List String → Except String (Table Path BaseEntry)
  | [] => .ok entries
  | name :: above =>
    let dir := (name :: above).reverse
    match entries.get dir with
    | some e =>
      if e.kind = .dir then .ok entries
      else .error ("lazyfs: " ++ renderPath p ++ " is under " ++ renderPath dir
        ++ ", which is not a directory")
    | none => addDirs p (entries.set dir dirEntry) above

/-- Everything lies in a directory, except perhaps what lies in `q`. -/
structure ParentsBut (q : Path) (entries : Table Path BaseEntry) : Prop where
  root : ∃ e, entries.get [] = some e ∧ e.kind = .dir
  parents : ∀ d n, entries.get (d ++ [n]) ≠ none → d ≠ q →
    ∃ e, entries.get d = some e ∧ e.kind = .dir
  modes : ∀ p e, entries.get p = some e → normalMode e.kind e.mode = e.mode

theorem ParentsBut.addDirs {entries t : Table Path BaseEntry} {r : List String}
    (h : ParentsBut r.reverse entries) (ht : addDirs p entries r = .ok t) :
    (∃ e, t.get [] = some e ∧ e.kind = .dir) ∧
      (∀ d n, t.get (d ++ [n]) ≠ none → ∃ e, t.get d = some e ∧ e.kind = .dir) ∧
      ∀ p e, t.get p = some e → normalMode e.kind e.mode = e.mode := by
  induction r generalizing entries with
  | nil =>
    cases ht
    refine ⟨h.root, fun d n hget => ?_, h.modes⟩
    by_cases hd : d = []
    · rw [hd]
      exact h.root
    · exact h.parents d n hget hd
  | cons name above ih =>
    rw [LazyFS.addDirs] at ht
    cases hdir : entries.get (name :: above).reverse with
    | some e =>
      simp only [hdir] at ht
      split_ifs at ht with hkind
      cases ht
      refine ⟨h.root, fun d n hget => ?_, h.modes⟩
      by_cases hd : d = (name :: above).reverse
      · rw [hd]
        exact ⟨e, hdir, hkind⟩
      · exact h.parents d n hget hd
    | none =>
      simp only [hdir] at ht
      refine ih ⟨?_, fun d n hget hd => ?_, fun q e hget => ?_⟩ ht
      · rw [get_set_of_ne _ _ (by simp)]
        exact h.root
      · -- only the parent of the directory that was added may be missing now
        by_cases hself : d = (name :: above).reverse
        · rw [hself, get_set_self]
          exact ⟨dirEntry, rfl, rfl⟩
        · have hne : d ++ [n] ≠ (name :: above).reverse := by
            rw [reverse_cons]
            intro heq
            exact hd (append_inj' heq rfl).1
          rw [get_set_of_ne _ _ hne] at hget
          rw [get_set_of_ne _ _ hself]
          exact h.parents d n hget hself
      · exact forall_set h.modes rfl q e hget

theorem Manifest.parentsBut_set (m : Manifest) (hp : p ≠ []) (entry : BaseEntry)
    (hmode : normalMode entry.kind entry.mode = entry.mode)
    (hsame : ∀ e, m.entries.get p = some e → entry.kind = .dir) :
    ParentsBut p.dropLast.reverse.reverse (m.entries.set p entry) := by
  rw [reverse_reverse]
  refine ⟨?_, fun d n hget hd => ?_, forall_set m.modes hmode⟩
  · rw [get_set_of_ne _ _ (fun h => hp h.symm)]
    exact m.root
  · have hne : d ++ [n] ≠ p := by
      rintro rfl
      exact hd dropLast_concat.symm
    rw [get_set_of_ne _ _ hne] at hget
    obtain ⟨e, he, hkind⟩ := m.parents d n hget
    exact exists_get_set he hkind fun _ hget => hsame e hget

/-- One entry of the listing: the body of the loop of `NewManifest`. -/
def Manifest.add (m : Manifest) (x : Path × BaseEntry) : Except String Manifest :=
  if hp : x.1 = [] then .ok m
  else
    let entry := { x.2 with mode := normalMode x.2.kind x.2.mode }
    if htwice : (m.entries.get x.1).any fun e => !(e.kind = .dir && entry.kind = .dir) then
      .error ("lazyfs: " ++ renderPath x.1 ++ " is listed twice")
    else
      match ht : addDirs x.1 (m.entries.set x.1 entry) x.1.dropLast.reverse with
      | .error e => .error e
      | .ok t =>
        have h := (m.parentsBut_set hp entry (by simp [entry]) fun e he => by
          simp only [he, Option.any_some, Bool.not_eq_true, Bool.not_eq_false', Bool.and_eq_true,
            decide_eq_true_eq] at htwice
          exact htwice.2).addDirs ht
        .ok ⟨m.commitID, t, h.1, h.2.1, h.2.2⟩

/-- A manifest with nothing but the root. -/
def Manifest.empty (commitID : String) : Manifest where
  commitID := commitID
  entries := Table.empty.set [] dirEntry
  root := ⟨dirEntry, Table.get_set_self _ _ _, rfl⟩
  parents d n h := by
    rw [Table.get_set_of_ne _ _ (by simp)] at h
    exact absurd rfl h
  modes p e h := by
    rw [Table.get_set] at h
    split_ifs at h
    · cases h
      rfl
    · cases h

/-- The manifest of a listing. -/
def newManifest (commitID : String) (listing : List (Path × BaseEntry)) : Except String Manifest :=
  listing.foldlM Manifest.add (.empty commitID)

namespace Manifest

variable (m : Manifest)

/-- `Lookup`. -/
def lookup (p : Path) : Option BaseEntry := m.entries.get p

/-- The name under which a path lies directly in a directory. -/
def childName (d p : Path) : Option String := if p.dropLast = d then p.getLast? else none

theorem childName_eq_some {d : Path} {n : String} : childName d p = some n ↔ p = d ++ [n] := by
  rw [childName]
  split_ifs with hd
  · rw [List.getLast?_eq_some_iff]
    constructor
    · rintro ⟨q, rfl⟩
      rw [← hd, dropLast_concat]
    · rintro rfl
      exact ⟨d, rfl⟩
  · simp only [false_iff]
    rintro rfl
    exact hd dropLast_concat

/-- `Children`, in order. -/
def children (d : Path) : List String :=
  (m.entries.rows.filterMap fun row => childName d row.1).insertionSort (· ≤ ·)

/-- The length of the longest path. -/
def depth : Nat := (m.entries.rows.map fun row => row.1.length).foldr max 0

/-- The walk of `filesUnder`, for some levels. -/
def filesUnderTo : Nat → Path → List (Path × BaseEntry)
  | 0, _ => []
  | levels + 1, dir => (m.children dir).flatMap fun name =>
    match m.lookup (dir ++ [name]) with
    | none => []
    | some e => if e.kind = .dir then filesUnderTo levels (dir ++ [name]) else [(dir ++ [name], e)]

/-- `filesUnder`: every file and symlink under a directory. -/
def filesUnder (p : Path) : List (Path × BaseEntry) := m.filesUnderTo m.depth p

variable {m} {d q : Path} {n : String} {e : BaseEntry}

theorem mem_children : n ∈ m.children d ↔ m.lookup (d ++ [n]) ≠ none := by
  rw [children, mem_insertionSort, mem_filterMap, lookup]
  constructor
  · rintro ⟨⟨q, e⟩, hmem, hname⟩
    rw [childName_eq_some] at hname
    rw [← hname, (m.entries.mem_rows_iff q e).mp hmem]
    simp
  · intro hget
    obtain ⟨e, he⟩ := Option.ne_none_iff_exists'.mp hget
    exact ⟨(d ++ [n], e), (m.entries.mem_rows_iff _ e).mpr he, childName_eq_some.mpr rfl⟩

theorem lookup_above (hp : m.lookup p ≠ none) (hd : d <+: p) (hne : d ≠ p) :
    ∃ e, m.lookup d = some e ∧ e.kind = .dir := by
  induction p using List.reverseRecOn with
  | nil => exact absurd (prefix_nil.mp hd) hne
  | append_singleton q n ih =>
    obtain ⟨e, he, hkind⟩ := m.parents q n hp
    rcases prefix_concat_iff.mp hd with heq | hle
    · exact absurd heq hne
    · by_cases hdq : d = q
      · rw [hdq]
        exact ⟨e, he, hkind⟩
      · exact ih (by rw [lookup, he]; simp) hle hdq

theorem length_le_depth (hp : m.lookup p ≠ none) : p.length ≤ m.depth := by
  obtain ⟨e, he⟩ := Option.ne_none_iff_exists'.mp hp
  exact List.le_max_of_le' 0 (mem_map_of_mem ((m.entries.mem_rows_iff p e).mpr he)) le_rfl

theorem mem_filesUnderTo {levels : Nat} : (q, e) ∈ m.filesUnderTo levels p ↔
    m.lookup q = some e ∧ e.kind ≠ .dir ∧ p <+: q ∧ p ≠ q ∧ q.length ≤ p.length + levels := by
  induction levels generalizing p with
  | zero =>
    simp only [filesUnderTo, not_mem_nil, false_iff, not_and]
    intro _ _ hle hne hlen
    exact hne (hle.eq_of_length (le_antisymm hle.length_le hlen))
  | succ levels ih =>
    simp only [filesUnderTo, mem_flatMap, mem_children]
    constructor
    · rintro ⟨name, hget, hmem⟩
      obtain ⟨e', he'⟩ := Option.ne_none_iff_exists'.mp hget
      simp only [he'] at hmem
      split_ifs at hmem with hkind
      · obtain ⟨hq, hfile, hle, hne, hlen⟩ := ih.mp hmem
        refine ⟨hq, hfile, (prefix_append p [name]).trans hle, ?_, ?_⟩
        · rintro rfl
          have hlt := hle.length_le
          simp at hlt
        · simp only [length_append, length_singleton] at hlen
          omega
      · rw [mem_singleton] at hmem
        obtain ⟨rfl, rfl⟩ := hmem
        exact ⟨he', hkind, prefix_append p [name], by simp, by simp⟩
    · rintro ⟨hq, hfile, ⟨r, rfl⟩, hne, hlen⟩
      cases r with
      | nil => simp at hne
      | cons name r =>
        have hchild : p ++ [name] <+: p ++ name :: r := ⟨r, by simp⟩
        have hqne : m.lookup (p ++ name :: r) ≠ none := by rw [hq]; simp
        by_cases hr : r = []
        · subst hr
          refine ⟨name, hqne, ?_⟩
          simp [hq, hfile]
        · have hstrict : p ++ [name] ≠ p ++ name :: r := by
            simpa using hr
          obtain ⟨e', he', hkind⟩ := lookup_above hqne hchild hstrict
          refine ⟨name, by rw [he']; simp, ?_⟩
          simp only [he', hkind]
          refine ih.mpr ⟨hq, hfile, hchild, hstrict, ?_⟩
          simp only [length_append, length_cons] at hlen ⊢
          omega

theorem mem_filesUnder :
    (q, e) ∈ m.filesUnder p ↔ m.lookup q = some e ∧ e.kind ≠ .dir ∧ p <+: q ∧ p ≠ q := by
  rw [filesUnder, mem_filesUnderTo]
  constructor
  · rintro ⟨hq, hfile, hle, hne, -⟩
    exact ⟨hq, hfile, hle, hne⟩
  · rintro ⟨hq, hfile, hle, hne⟩
    refine ⟨hq, hfile, hle, hne, ?_⟩
    have hlen := length_le_depth (by rw [hq]; simp)
    omega

end Manifest

end GitSlice.LazyFS
