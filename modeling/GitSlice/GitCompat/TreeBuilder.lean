import GitSlice.GitCompat.CanonicalTree

/-! # Incremental trees are the canonical ones
The builder keeps directories, parent entries and dirty marks in separate maps. `Builds` says what
they are for a map of files: a directory for every path with files under it, an entry for every
name, and a hash wherever nothing has changed since. A file written where no directory was, and a
file deleted, keep this (`Builds.set`, `Builds.remove`); `root` recomputes what is dirty, deepest
directories first, and returns the id of the canonical tree. -/

namespace GitSlice

open List Table Option

namespace TreeBuilder

/-- The entry of a name in a directory, if there is such a directory. -/
def entry (b : TreeBuilder) (d : Path) (n : String) : Option TreeEntry :=
  (b.dirs.get d).bind fun node => node.entries.get n

variable {b : TreeBuilder} {d q : Path} {n : String}

theorem not_below_self (q : Path) (n : String) : ¬ q ++ [n] <+: q := by
  intro h
  have hlen := h.length_le
  simp at hlen

theorem entry_eq_dir (b : TreeBuilder) (d : Path) (n : String) :
    b.entry d n = (b.dir d).entries.get n := by
  rw [entry, dir]
  cases b.dirs.get d <;> rfl

theorem get_setDir (b : TreeBuilder) (d : Path) (node : DirNode) (q : Path) :
    (b.setDir d node).dirs.get q = if q = d then some node else b.dirs.get q :=
  get_set _ _ _ _

theorem entry_setDir (b : TreeBuilder) (d : Path) (node : DirNode) (q : Path) (m : String) :
    (b.setDir d node).entry q m = if q = d then node.entries.get m else b.entry q m := by
  rw [entry, get_setDir]
  split_ifs <;> rfl

theorem entry_setEntry (b : TreeBuilder) (d : Path) (n : String) (e : TreeEntry) (q : Path)
    (m : String) :
    (b.setEntry d n e).entry q m = if q = d ∧ m = n then some e else b.entry q m := by
  rw [setEntry, entry_setDir, get_set]
  by_cases hq : q = d
  · simp [hq, entry_eq_dir]
  · simp [hq]

theorem entry_eraseEntry (b : TreeBuilder) (d : Path) (n : String) (q : Path) (m : String) :
    (b.eraseEntry d n).entry q m = if q = d ∧ m = n then none else b.entry q m := by
  rw [eraseEntry, entry_setDir, get_erase]
  by_cases hq : q = d
  · simp [hq, entry_eq_dir]
  · simp [hq]

theorem entry_setDir_entries {node : DirNode} (hnode : node.entries = (b.dir d).entries) (q : Path)
    (m : String) : (b.setDir d node).entry q m = b.entry q m := by
  rw [entry_setDir, hnode]
  split_ifs with hq
  · rw [hq, entry_eq_dir]
  · rfl

/-! ## Marking -/

/-- What `markDirty` leaves of a path: the path and every path above it are dirty directories with
an entry for the next name, and everything else is as it was. -/
structure Marked (q : Path) (b b' : TreeBuilder) : Prop where
  dirs : ∀ d, ¬ d <+: q → b'.dirs.get d = b.dirs.get d
  dirty : ∀ d, d <+: q → ∃ node, b'.dirs.get d = some node ∧ node.dirty = true
  entry : ∀ d n, ¬ d ++ [n] <+: q → b'.entry d n = b.entry d n
  link : ∀ d n, d ++ [n] <+: q → b'.entry d n = some ((b.entry d n).getD ⟨dirMode, [], true⟩)
  seen : b'.seen = b.seen
  objects : b'.objects = b.objects

theorem marked_setDir (b : TreeBuilder) :
    Marked [] b (b.setDir [] { b.dir [] with dirty := true }) where
  dirs d hd := by
    rw [get_setDir, if_neg]
    rintro rfl
    exact hd (prefix_refl _)
  dirty d hd := by
    rw [prefix_nil.mp hd, get_setDir]
    exact ⟨_, rfl, rfl⟩
  entry d n _ := by
    apply entry_setDir_entries
    rfl
  link d n h := by simp at h
  seen := rfl
  objects := rfl

theorem linkParent_spec (b : TreeBuilder) (d : Path) (n : String) :
    (∀ q, q ≠ d → (b.linkParent d n).dirs.get q = b.dirs.get q) ∧
    (∀ q m, (b.linkParent d n).entry q m =
      if q = d ∧ m = n then some ((b.entry d n).getD ⟨dirMode, [], true⟩) else b.entry q m) ∧
    (b.linkParent d n).seen = b.seen ∧ (b.linkParent d n).objects = b.objects := by
  rw [linkParent]
  split
  · rename_i e he
    have hentry : b.entry d n = some e := by rw [entry_eq_dir]; exact he
    refine ⟨fun q hq => by rw [get_setDir, if_neg hq], fun q m => ?_, rfl, rfl⟩
    rw [entry_setDir_entries rfl]
    split_ifs with h
    · rw [h.1, h.2, hentry]
      rfl
    · rfl
  · rename_i he
    have hentry : b.entry d n = none := by rw [entry_eq_dir]; exact he
    refine ⟨fun q hq => by rw [setEntry, get_setDir, if_neg hq], fun q m => ?_, rfl, rfl⟩
    rw [entry_setEntry, hentry]
    rfl

theorem marked_markDirtyFrom (b : TreeBuilder) (r : List String) :
    Marked r.reverse b (b.markDirtyFrom r) := by
  induction r generalizing b with
  | nil => exact marked_setDir b
  | cons name above ih =>
    have hrev : (name :: above).reverse = above.reverse ++ [name] := reverse_cons
    rw [markDirtyFrom]
    rw [hrev]
    -- the directory is marked, then its parent gets an entry for it, then the parent is marked
    let b₁ := b.setDir (above.reverse ++ [name])
      { b.dir (above.reverse ++ [name]) with dirty := true }
    have hb₁ : ∀ q m, b₁.entry q m = b.entry q m := entry_setDir_entries rfl
    obtain ⟨hdirs, hentry, hseen, hobjects⟩ := linkParent_spec b₁ above.reverse name
    have hm := ih (b₁.linkParent above.reverse name)
    have habove : ∀ {d : Path}, ¬ d <+: above.reverse ++ [name] →
        ¬ d <+: above.reverse := fun h h' => h (h'.trans (prefix_append _ _))
    have hself := not_below_self above.reverse name
    constructor
    case dirs =>
      intro d hd
      have hne : d ≠ above.reverse := by
        rintro rfl
        exact hd (prefix_append _ _)
      have hne' : d ≠ above.reverse ++ [name] := by
        rintro rfl
        exact hd (prefix_refl _)
      rw [hm.dirs d (habove hd), hdirs d hne, get_setDir, if_neg hne']
    case dirty =>
      intro d hd
      rcases prefix_concat_iff.mp hd with rfl | hd
      · have hne : above.reverse ++ [name] ≠ above.reverse := by simp
        rw [hm.dirs _ hself, hdirs _ hne, get_setDir, if_pos rfl]
        exact ⟨_, rfl, rfl⟩
      · exact hm.dirty d hd
    case entry =>
      intro d n hd
      have hne : ¬ (d = above.reverse ∧ n = name) := by
        rintro ⟨rfl, rfl⟩
        exact hd (prefix_refl _)
      rw [hm.entry d n (habove hd), hentry, if_neg hne, hb₁]
    case link =>
      intro d n hd
      rcases prefix_concat_iff.mp hd with heq | hup
      · obtain ⟨rfl, hname⟩ := append_inj heq (by
          have hlen := congrArg List.length heq
          simpa using hlen)
        cases hname
        rw [hm.entry _ _ hself, hentry, if_pos ⟨rfl, rfl⟩, hb₁]
      · have hne : ¬ (d = above.reverse ∧ n = name) := by
          rintro ⟨rfl, rfl⟩
          exact hself hup
        rw [hm.link d n hup, hentry, if_neg hne, hb₁]
    case seen => exact hm.seen.trans hseen
    case objects => exact hm.objects.trans hobjects

theorem marked_markDirty (b : TreeBuilder) (q : Path) : Marked q b (b.markDirty q) := by
  have h := marked_markDirtyFrom b q.reverse
  rwa [reverse_reverse] at h

/-! ## What the builder keeps -/

section Builds

variable (sha1 : Bytes → Bytes) (blob : String → Bytes)

/-- The entry of a name under a directory: a file, a directory whose hash is right unless it is
dirty, or none. -/
def EntryOk (b : TreeBuilder) (files : FileMap) (d : Path) (n : String) : Prop :=
  match files.get (d ++ [n]) with
  | some f => b.entry d n = some ⟨f.mode, blob f.contentHash, false⟩
  | none =>
    (files.IsDir (d ++ [n]) → ∃ sha, b.entry d n = some ⟨dirMode, sha, true⟩ ∧
      ∀ node, b.dirs.get (d ++ [n]) = some node → node.dirty = false →
        sha = files.treeID sha1 blob (d ++ [n])) ∧
    (¬ files.IsDir (d ++ [n]) → b.entry d n = none)

/-- The builder holds the directories of a map of files, apart from what is on the way to `q`. -/
structure BuildsBut (q : Path) (b : TreeBuilder) (files : FileMap) : Prop where
  dirs : ∀ d, ¬ d <+: q → ((b.dirs.get d).isSome = true ↔ files.IsDir d)
  entries : ∀ d n, ¬ d ++ [n] <+: q → EntryOk sha1 blob b files d n
  clean : ∀ d node, ¬ d <+: q → b.dirs.get d = some node → node.dirty = false →
    node.sha = files.treeID sha1 blob d
  up : ∀ d n node, ¬ d ++ [n] <+: q → b.dirs.get (d ++ [n]) = some node → node.dirty = true →
    ¬ d <+: q → ∃ parent, b.dirs.get d = some parent ∧ parent.dirty = true
  seen : ∀ d node, ¬ d <+: q → b.dirs.get d = some node → node.dirty = false →
    node.sha ∈ b.seen ∨ node.sha = emptyTreeID sha1

/-- The builder holds the directories of a map of files. -/
structure Builds (b : TreeBuilder) (files : FileMap) : Prop where
  dirs : ∀ d, (b.dirs.get d).isSome = true ↔ files.IsDir d
  entries : ∀ d n, EntryOk sha1 blob b files d n
  clean : ∀ d node, b.dirs.get d = some node → node.dirty = false →
    node.sha = files.treeID sha1 blob d
  up : ∀ d n node, b.dirs.get (d ++ [n]) = some node → node.dirty = true →
    ∃ parent, b.dirs.get d = some parent ∧ parent.dirty = true
  seen : ∀ d node, b.dirs.get d = some node → node.dirty = false →
    node.sha ∈ b.seen ∨ node.sha = emptyTreeID sha1

variable {sha1 blob} {files : FileMap}

theorem BuildsBut.markDirty (h : BuildsBut sha1 blob q b files) (hq : files.IsDir q)
    (hfree : ∀ d, d <+: q → files.get d = none)
    (hway : ∀ d n, d ++ [n] <+: q → ∀ e, b.entry d n = some e → e.mode = dirMode ∧ e.isDir = true) :
    Builds sha1 blob (b.markDirty q) files := by
  have hm := marked_markDirty b q
  -- on the way there are dirty directories
  have hclean : ∀ {d node}, (b.markDirty q).dirs.get d = some node → node.dirty = false →
      ¬ d <+: q ∧ b.dirs.get d = some node := by
    intro d node hnode hclean
    have hd : ¬ d <+: q := by
      intro hd
      obtain ⟨node', hnode', hdirty⟩ := hm.dirty d hd
      rw [hnode] at hnode'
      cases hnode'
      simp [hclean] at hdirty
    exact ⟨hd, by rwa [← hm.dirs d hd]⟩
  constructor
  case dirs =>
    intro d
    by_cases hd : d <+: q
    · obtain ⟨node, hnode, -⟩ := hm.dirty d hd
      simp [hnode, hq.above hd]
    · rw [hm.dirs d hd]
      exact h.dirs d hd
  case entries =>
    intro d n
    by_cases hd : d ++ [n] <+: q
    · rw [EntryOk, hfree _ hd]
      refine ⟨fun _ => ?_, fun hnot => absurd (hq.above hd) hnot⟩
      have hlink := hm.link d n hd
      cases he : b.entry d n with
      | none =>
        rw [he] at hlink
        exact ⟨[], hlink, fun _ hnode hnot => absurd hd (hclean hnode hnot).1⟩
      | some e =>
        obtain ⟨hmode, hdir⟩ := hway d n hd e he
        rw [he] at hlink
        refine ⟨e.sha, ?_, fun _ hnode hnot => absurd hd (hclean hnode hnot).1⟩
        rw [hlink]
        obtain ⟨mode, sha, isDir⟩ := e
        cases hmode
        cases hdir
        rfl
    · have hok := h.entries d n hd
      rw [EntryOk] at hok ⊢
      rw [hm.entry d n hd, hm.dirs _ hd]
      exact hok
  case clean =>
    intro d node hnode hnot
    obtain ⟨hd, hnode⟩ := hclean hnode hnot
    exact h.clean d node hd hnode hnot
  case up =>
    intro d n node hnode hdirty
    by_cases hd : d <+: q
    · exact hm.dirty d hd
    · have hd' : ¬ d ++ [n] <+: q := fun h' => hd ((prefix_append d [n]).trans h')
      rw [hm.dirs _ hd'] at hnode
      rw [hm.dirs d hd]
      exact h.up d n node hd' hnode hdirty hd
  case seen =>
    intro d node hnode hnot
    obtain ⟨hd, hnode⟩ := hclean hnode hnot
    rw [hm.seen]
    exact h.seen d node hd hnode hnot

variable {x : Path}

theorem above_of_name (h : x <+: d ++ [n]) (hne : x ≠ d ++ [n]) : x <+: d :=
  (prefix_concat_iff.mp h).resolve_left hne

/-- The same files, apart from the one at `d ++ [n]`. -/
def SameBut (d : Path) (n : String) (files files' : FileMap) : Prop :=
  ∀ r, r ≠ d ++ [n] → files'.get r = files.get r

section SameBut

variable {files' : FileMap} (hsame : SameBut d n files files')
include hsame

/-- Directories that are not on the way to the changed file stay directories. -/
theorem SameBut.isDir_iff (hx : ¬ x <+: d) : files'.IsDir x ↔ files.IsDir x := by
  refine or_congr_right (exists_congr fun r => and_congr_left ?_)
  rintro ⟨hunder, hne⟩
  rw [hsame r]
  rintro rfl
  exact hx (above_of_name hunder hne)

theorem SameBut.treeID_eq (hfiles : files.TreeLike) (hx : ¬ x <+: d) :
    files'.treeID sha1 blob x = files.treeID sha1 blob x := by
  refine (FileMap.treeID_congr sha1 blob hfiles fun r hunder hne => ?_).symm
  refine (hsame r ?_).symm
  rintro rfl
  exact hx (above_of_name hunder hne)

theorem SameBut.entryOk (hfiles : files.TreeLike) {b' : TreeBuilder} {m : String}
    (hx : ¬ x ++ [m] <+: d) (hne : x ++ [m] ≠ d ++ [n]) (hentry : b'.entry x m = b.entry x m)
    (hdirs : b'.dirs.get (x ++ [m]) = b.dirs.get (x ++ [m])) (hok : EntryOk sha1 blob b files x m) :
    EntryOk sha1 blob b' files' x m := by
  rw [EntryOk] at hok ⊢
  rw [hsame _ hne, hentry, hdirs, hsame.isDir_iff hx, hsame.treeID_eq hfiles hx]
  exact hok

end SameBut

variable {files' : FileMap}

theorem ne_of_above (h : x <+: d) : x ≠ d ++ [n] := by
  rintro rfl
  exact not_below_self d n h

/-- The directory of the file is written again, with another entry for its name only. -/
theorem Builds.setDir (h : Builds sha1 blob b files) (hfiles : files.TreeLike)
    (hsame : SameBut d n files files') {node : DirNode}
    (hentry : ∀ x m, ¬ (x = d ∧ m = n) → (b.setDir d node).entry x m = b.entry x m)
    (hok : EntryOk sha1 blob (b.setDir d node) files' d n) :
    BuildsBut sha1 blob d (b.setDir d node) files' := by
  have hget : ∀ {x : Path}, ¬ x <+: d → (b.setDir d node).dirs.get x = b.dirs.get x := by
    intro x hx
    rw [get_setDir, if_neg]
    rintro rfl
    exact hx (prefix_refl x)
  constructor
  case dirs =>
    intro x hx
    rw [hget hx, hsame.isDir_iff hx]
    exact h.dirs x
  case entries =>
    intro x m hx
    by_cases heq : x ++ [m] = d ++ [n]
    · obtain ⟨rfl, hm⟩ := append_inj' heq rfl
      cases hm
      exact hok
    · refine hsame.entryOk hfiles hx heq (hentry x m ?_) (hget hx) (h.entries x m)
      rintro ⟨rfl, rfl⟩
      exact heq rfl
  case clean =>
    intro x node hx hnode hclean
    rw [hget hx] at hnode
    rw [hsame.treeID_eq hfiles hx]
    exact h.clean x node hnode hclean
  case up =>
    intro x m node hx hnode hdirty hxd
    rw [hget hx] at hnode
    rw [hget hxd]
    exact h.up x m node hnode hdirty
  case seen =>
    intro x node hx hnode hclean
    rw [hget hx] at hnode
    exact h.seen x node hnode hclean

/-- **A file is written** where no directory was. -/
theorem Builds.set (h : Builds sha1 blob b files) (hfiles : files.TreeLike)
    (hfiles' : files'.TreeLike) {f : ProjectedFile} (hsame : SameBut d n files files')
    (hnew : files'.get (d ++ [n]) = some f) (hdir : ¬ files.IsDir (d ++ [n])) :
    Builds sha1 blob (b.set d n ⟨f.mode, blob f.contentHash, false⟩) files' := by
  have hnewne : files'.get (d ++ [n]) ≠ none := by rw [hnew]; simp
  -- nothing above the file is a file
  have hfree : ∀ x, x <+: d → files'.get x = none := by
    intro x hx
    by_contra hget
    exact ne_of_above hx (hfiles'.apart x (d ++ [n]) hget hnewne (hx.trans (prefix_append d [n])))
  refine BuildsBut.markDirty ?_ (.inr ⟨d ++ [n], hnewne, prefix_append d [n], by simp⟩) hfree ?_
  · refine h.setDir hfiles hsame (fun x m hne => ?_) ?_
    · exact (entry_setEntry b d n _ x m).trans (if_neg hne)
    · rw [EntryOk, hnew]
      exact (entry_setEntry b d n _ d n).trans (if_pos ⟨rfl, rfl⟩)
  · intro x m hx e he
    have hne : ¬ (x = d ∧ m = n) := by
      rintro ⟨rfl, rfl⟩
      exact ne_of_above hx rfl
    rw [entry_setEntry, if_neg hne] at he
    have hok := h.entries x m
    rw [EntryOk, ← hsame _ (ne_of_above hx), hfree _ hx] at hok
    by_cases hisdir : files.IsDir (x ++ [m])
    · obtain ⟨sha, hsha, -⟩ := hok.1 hisdir
      rw [hsha] at he
      cases he
      exact ⟨rfl, rfl⟩
    · rw [hok.2 hisdir] at he
      cases he

/-- The builder while `remove` walks up: the way to `q` is there, with its entries. -/
structure Pruning (sha1 : Bytes → Bytes) (blob : String → Bytes) (q : Path) (b : TreeBuilder)
    (files : FileMap) : Prop where
  builds : BuildsBut sha1 blob q b files
  way : ∀ d, d <+: q → (b.dirs.get d).isSome = true
  entry : ∀ d n, d ++ [n] <+: q → ∃ sha, b.entry d n = some ⟨dirMode, sha, true⟩

theorem BuildsBut.names_eq_nil (h : BuildsBut sha1 blob q b files)
    (hempty : (b.dir q).entries.rows = []) : ∀ m, b.entry q m = none ∧ m ∉ files.names q := by
  have hnone : ∀ m, b.entry q m = none := by
    intro m
    rw [entry_eq_dir, Table.get, hempty]
    rfl
  intro m
  refine ⟨hnone m, fun hm => ?_⟩
  have hok := h.entries q m (not_below_self q m)
  rw [EntryOk, hnone] at hok
  cases hget : files.get (q ++ [m]) with
  | some f =>
    rw [hget] at hok
    cases hok
  | none =>
    rw [hget] at hok
    obtain ⟨sha, hsha, -⟩ := hok.1 ((FileMap.mem_names_iff.mp hm).resolve_left (not_not.mpr hget))
    cases hsha

theorem BuildsBut.isDir_of_ne_nil (h : BuildsBut sha1 blob q b files)
    (hrows : (b.dir q).entries.rows ≠ []) : files.IsDir q := by
  obtain ⟨⟨m, e⟩, hmem⟩ := exists_mem_of_ne_nil _ hrows
  have he : b.entry q m = some e := by
    rw [entry_eq_dir]
    exact (mem_rows_iff _ m e).mp hmem
  have hok := h.entries q m (not_below_self q m)
  refine FileMap.isDir_of_mem_names (FileMap.mem_names_iff.mpr ?_ : m ∈ files.names q)
  by_contra hnot
  rw [not_or, not_not] at hnot
  rw [EntryOk, hnot.1] at hok
  rw [hok.2 hnot.2] at he
  cases he

theorem Pruning.up {name : String} (h : Pruning sha1 blob (q ++ [name]) b files)
    (hfree : files.get (q ++ [name]) = none) (hempty : (b.dir (q ++ [name])).entries.rows = []) :
    Pruning sha1 blob q
      (({ b with dirs := b.dirs.erase (q ++ [name]) } : TreeBuilder).eraseEntry q name) files := by
  obtain ⟨hb, hway, hentry⟩ := h
  have hqne : q ≠ q ++ [name] := by simp
  have hnames := hb.names_eq_nil hempty
  have hnotdir : ¬ files.IsDir (q ++ [name]) := by
    intro hdir
    rcases hdir.exists_name with hnil | ⟨m, hm⟩
    · simp at hnil
    · exact (hnames m).2 hm
  -- what there is to find afterwards
  generalize hb' : ({ b with dirs := b.dirs.erase (q ++ [name]) } : TreeBuilder).eraseEntry q name = b'
  have hget : ∀ x, x ≠ q → x ≠ q ++ [name] → b'.dirs.get x = b.dirs.get x := by
    intro x hxq hxn
    rw [← hb', eraseEntry, get_setDir, if_neg hxq]
    exact (get_erase _ _ _).trans (if_neg hxn)
  have hgone : b'.dirs.get (q ++ [name]) = none := by
    rw [← hb', eraseEntry, get_setDir, if_neg hqne.symm]
    exact (get_erase _ _ _).trans (if_pos rfl)
  have hfind : ∀ x m, x ++ [m] ≠ q ++ [name] → b'.entry x m = b.entry x m := by
    intro x m hne
    have hne' : ¬ (x = q ∧ m = name) := by
      rintro ⟨rfl, rfl⟩
      exact hne rfl
    rw [← hb', entry_eraseEntry, if_neg hne']
    by_cases hx : x = q ++ [name]
    · subst hx
      rw [(hnames m).1]
      exact congrArg (Option.bind · _) ((get_erase _ _ _).trans (if_pos rfl))
    · exact congrArg (Option.bind · _) ((get_erase _ _ _).trans (if_neg hx))
  have hnot : ∀ {x : Path}, ¬ x <+: q → x ≠ q ++ [name] → ¬ x <+: q ++ [name] := by
    intro x hx hne hle
    exact hx (above_of_name hle hne)
  have hneq : ∀ {x : Path}, ¬ x <+: q → x ≠ q := fun hx heq => hx (heq ▸ prefix_refl q)
  have hkept : ∀ {x node}, ¬ x <+: q → b'.dirs.get x = some node →
      x ≠ q ++ [name] ∧ ¬ x <+: q ++ [name] ∧ b.dirs.get x = some node := by
    intro x node hx hnode
    have hxn : x ≠ q ++ [name] := by
      rintro rfl
      rw [hgone] at hnode
      cases hnode
    exact ⟨hxn, hnot hx hxn, by rwa [← hget x (hneq hx) hxn]⟩
  refine ⟨?_, ?_, ?_⟩
  · constructor
    case dirs =>
      intro x hx
      by_cases hxn : x = q ++ [name]
      · subst hxn
        simp [hgone, hnotdir]
      · rw [hget x (hneq hx) hxn]
        exact hb.dirs x (hnot hx hxn)
    case entries =>
      intro x m hx
      by_cases hxn : x ++ [m] = q ++ [name]
      · obtain ⟨rfl, hm⟩ := append_inj' hxn rfl
        cases hm
        rw [EntryOk, hfree]
        refine ⟨fun hdir => absurd hdir hnotdir, fun _ => ?_⟩
        rw [← hb', entry_eraseEntry, if_pos ⟨rfl, rfl⟩]
      · have hok := hb.entries x m (hnot hx hxn)
        rw [EntryOk] at hok ⊢
        rw [hfind x m hxn, hget _ (hneq hx) hxn]
        exact hok
    case clean =>
      intro x node hx hnode hclean
      obtain ⟨-, hx', hnode⟩ := hkept hx hnode
      exact hb.clean x node hx' hnode hclean
    case up =>
      intro x m node hx hnode hdirty hxq
      obtain ⟨-, hx', hnode⟩ := hkept hx hnode
      by_cases hxn : x = q ++ [name]
      · -- the pruned directory had no directory under it
        subst hxn
        have hdir := (hb.dirs _ hx').mp (by rw [hnode]; rfl)
        exact absurd (FileMap.mem_names_iff.mpr (.inr hdir)) (hnames m).2
      · rw [hget x (hneq hxq) hxn]
        exact hb.up x m node hx' hnode hdirty (hnot hxq hxn)
    case seen =>
      intro x node hx hnode hclean
      obtain ⟨-, hx', hnode⟩ := hkept hx hnode
      rw [← hb']
      exact hb.seen x node hx' hnode hclean
  · intro x hx
    by_cases hxq : x = q
    · subst hxq
      rw [← hb', eraseEntry, get_setDir, if_pos rfl]
      rfl
    · have hxn : x ≠ q ++ [name] := ne_of_above hx
      rw [hget x hxq hxn]
      exact hway x (hx.trans (prefix_append q [name]))
  · intro x m hx
    have hxn : x ++ [m] ≠ q ++ [name] := ne_of_above hx
    rw [hfind x m hxn]
    exact hentry x m (hx.trans (prefix_append q [name]))

/-- **The loop of `remove`** stops at a directory of the map. -/
theorem Pruning.pruneFrom {r : List String} (h : Pruning sha1 blob r.reverse b files)
    (hfree : ∀ x, x <+: r.reverse → files.get x = none) :
    Pruning sha1 blob (b.pruneFrom r).2 (b.pruneFrom r).1 files ∧
      files.IsDir (b.pruneFrom r).2 ∧ (b.pruneFrom r).2 <+: r.reverse := by
  induction r generalizing b with
  | nil => exact ⟨h, .inl rfl, prefix_refl _⟩
  | cons name above ih =>
    rw [reverse_cons] at h hfree
    rw [TreeBuilder.pruneFrom, reverse_cons]
    split_ifs with hempty
    · have hup := h.up (hfree _ (prefix_refl _)) hempty
      obtain ⟨hp, hdir, hle⟩ := ih hup fun x hx => hfree x (hx.trans (prefix_append _ _))
      exact ⟨hp, hdir, hle.trans (prefix_append _ _)⟩
    · exact ⟨h, h.builds.isDir_of_ne_nil hempty, prefix_refl _⟩

/-- **A file is deleted**, with the directories that it leaves empty. -/
theorem Builds.remove (h : Builds sha1 blob b files) (hfiles : files.TreeLike)
    (hsame : SameBut d n files files') (hold : files.get (d ++ [n]) ≠ none)
    (hgone : files'.get (d ++ [n]) = none) : Builds sha1 blob (b.remove d n) files' := by
  have hdir : files.IsDir d :=
    FileMap.isDir_of_mem_names (FileMap.mem_names_iff.mpr (.inl hold))
  obtain ⟨node, hnode⟩ := isSome_iff_exists.mp ((h.dirs d).mpr hdir)
  have hnotdir : ¬ files.IsDir (d ++ [n]) := hfiles.not_isDir hold
  have hfree : ∀ x, x <+: d → files.get x = none := by
    intro x hx
    by_contra hget
    exact hfiles.not_isDir hget (hdir.above hx)
  have hpruning : Pruning sha1 blob d (b.eraseEntry d n) files' := by
    refine ⟨?_, ?_, ?_⟩
    · refine h.setDir hfiles hsame (fun x m hne => ?_) ?_
      · exact (entry_eraseEntry b d n x m).trans (if_neg hne)
      · rw [EntryOk, hgone, hsame.isDir_iff (not_below_self d n)]
        refine ⟨fun hisdir => absurd hisdir hnotdir, fun _ => ?_⟩
        exact (entry_eraseEntry b d n d n).trans (if_pos ⟨rfl, rfl⟩)
    · intro x hx
      rw [eraseEntry, get_setDir]
      split_ifs
      · rfl
      · exact (h.dirs x).mpr (hdir.above hx)
    · intro x m hx
      have hne : ¬ (x = d ∧ m = n) := by
        rintro ⟨rfl, rfl⟩
        exact ne_of_above hx rfl
      have hok := h.entries x m
      rw [EntryOk, hfree _ hx] at hok
      obtain ⟨sha, hsha, -⟩ := hok.1 (hdir.above hx)
      refine ⟨sha, ?_⟩
      rw [entry_eraseEntry, if_neg hne]
      exact hsha
  have hfree' : ∀ x, x <+: d → files'.get x = none := by
    intro x hx
    rw [hsame x (ne_of_above hx)]
    exact hfree x hx
  rw [← reverse_reverse d] at hpruning hfree'
  obtain ⟨hp, hisdir, hle⟩ := hpruning.pruneFrom hfree'
  rw [TreeBuilder.remove, hnode]
  rw [reverse_reverse] at hp hisdir hle
  refine hp.builds.markDirty hisdir (fun x hx => ?_) fun x m hx e he => ?_
  · exact hfree' x ((hx.trans hle).trans (by rw [reverse_reverse]))
  · obtain ⟨sha, hsha⟩ := hp.entry x m hx
    rw [hsha] at he
    cases he
    exact ⟨rfl, rfl⟩

end Builds

end TreeBuilder

end GitSlice
