import GitSlice.GitCompat.TreeBuilder
import GitSlice.Library.Lists
import GitSlice.Library.Machine

/-! # The trees of a projected history
A commit applies the changes `applyListing` returns to the builder, one by one in the order of their
paths, and asks for the root; a restart makes a new builder over the files. In a run in which no
commit turns a directory into a file, the root is that of the canonical tree whatever came before,
and every tree under it was emitted or belongs to an earlier root. -/

namespace GitSlice

open List Table

namespace TreeBuilder

variable {sha1 : Bytes → Bytes} {blob : String → Bytes} {b : TreeBuilder} {files : FileMap}

/-! ## The changes of a commit -/

theorem sameBut_write (files : FileMap) (d : Path) (n : String) (c : Option ProjectedFile) :
    SameBut d n files (files.write (d ++ [n]) c) := by
  intro r hr
  rw [get_write, if_neg hr]

/-- Changes to be applied in turn: each path once, a path before what is under it, files only where
no directory is and deletes only where there is a file. -/
structure Applicable (files : FileMap) (changes : List FileChange) : Prop where
  nodup : (changes.map Prod.fst).Nodup
  order : changes.Pairwise fun x y => ¬ y.1 <+: x.1
  new : ∀ p c, (p, c) ∈ changes → c ≠ none → ¬ files.IsDir p
  old : ∀ p c, (p, c) ∈ changes → c = none → files.get p ≠ none

variable {c : Option ProjectedFile} {p : Path}

theorem Applicable.tail {rest : List FileChange} (h : Applicable files ((p, c) :: rest))
    (hfiles : files.TreeLike) (hfinal : FileMap.TreeLike (files.writeAll ((p, c) :: rest))) :
    FileMap.TreeLike (files.write p c) ∧ Applicable (files.write p c) rest := by
  obtain ⟨hnodup, horder, hnew, hold⟩ := h
  rw [map_cons, nodup_cons] at hnodup
  rw [pairwise_cons] at horder
  have hdir : c ≠ none → ¬ files.IsDir p := hnew p c mem_cons_self
  have hget : ∀ {r : Path}, r ≠ p → (files.write p c).get r = files.get r := by
    intro r hr
    rw [get_write, if_neg hr]
  have hfinalp : (files.writeAll ((p, c) :: rest)).get p = c := by
    rw [writeAll_cons, get_writeAll_of_notMem _ hnodup.1, get_write, if_pos rfl]
  have hsome : (files.write p c).get p = c := by rw [get_write, if_pos rfl]
  refine ⟨⟨fun r hr => ?_, fun r s hr hs hle => ?_⟩, hnodup.2, horder.2, ?_, ?_⟩
  · by_cases hrp : r = p
    · subst hrp
      rw [hsome] at hr
      exact hfinal.proper r (by rw [hfinalp]; exact hr)
    · rw [hget hrp] at hr
      exact hfiles.proper r hr
  · by_cases hrp : r = p <;> by_cases hsp : s = p
    · rw [hrp, hsp]
    · -- a file under the new one: a directory was there
      subst hrp
      rw [hsome] at hr
      rw [hget hsp] at hs
      exact absurd (.inr ⟨s, hs, hle, fun heq => hsp heq.symm⟩) (hdir hr)
    · -- a file above the new one: its delete would have come before
      subst hsp
      rw [hsome] at hs
      rw [hget hrp] at hr
      have hrest : r ∉ rest.map Prod.fst := by
        intro hmem
        obtain ⟨⟨r', c'⟩, hmem', rfl⟩ := mem_map.mp hmem
        exact horder.1 _ hmem' hle
      refine hfinal.apart r s ?_ (by rw [hfinalp]; exact hs) hle
      rw [writeAll_cons, get_writeAll_of_notMem _ hrest, hget hrp]
      exact hr
    · rw [hget hrp] at hr
      rw [hget hsp] at hs
      exact hfiles.apart r s hr hs hle
  · rintro q c' hmem hc' (rfl | ⟨s, hs, hle, hne⟩)
    · exact hnew [] c' (mem_cons_of_mem _ hmem) hc' (.inl rfl)
    · by_cases hsp : s = p
      · subst hsp
        exact horder.1 _ hmem hle
      · rw [hget hsp] at hs
        exact hnew q c' (mem_cons_of_mem _ hmem) hc' (.inr ⟨s, hs, hle, hne⟩)
  · intro q c' hmem hc'
    have hqp : q ≠ p := by
      rintro rfl
      exact hnodup.1 (mem_map.mpr ⟨_, hmem, rfl⟩)
    rw [hget hqp]
    exact hold q c' (mem_cons_of_mem _ hmem) hc'

/-! ## The root -/

/-- The hash and the mark of a directory. -/
def marks (b : TreeBuilder) (d : Path) : Option (Bytes × Bool) :=
  (b.dirs.get d).map fun node => (node.sha, node.dirty)

/-- What computing a directory leaves: its hash, the entry in its parent, and the object if it is a
new one. -/
structure Rehashed (sha1 : Bytes → Bytes) (d : Path) (sha : Bytes) (b b' : TreeBuilder) : Prop where
  marks : ∀ x, b'.marks x = if x = d then some (sha, false) else b.marks x
  entry : ∀ x m, b'.entry x m = if x ++ [m] = d then some ⟨dirMode, sha, true⟩ else b.entry x m
  seen : ∀ id, id ∈ b.seen → id ∈ b'.seen
  added : sha ∈ b'.seen ∨ sha = emptyTreeID sha1
  emitted : ∀ id, id ∈ b'.seen → id ∈ b.seen ∨ (id = sha ∧ ∃ o ∈ b'.objects, o.id = id)
  objects : ∀ o, o ∈ b.objects → o ∈ b'.objects
  ids : ∀ o, o ∈ b'.objects → o ∈ b.objects ∨ o.id = gitObjectID sha1 "tree" o.data

theorem marks_setDir (b : TreeBuilder) (d : Path) (node : DirNode) (x : Path) :
    (b.setDir d node).marks x = if x = d then some (node.sha, node.dirty) else b.marks x := by
  rw [marks, get_setDir]
  split_ifs
  · rfl
  · rfl

variable {d : Path}

theorem marks_setEntry (hd : (b.dirs.get d).isSome = true) (n : String) (e : TreeEntry) (x : Path) :
    (b.setEntry d n e).marks x = b.marks x := by
  obtain ⟨node, hnode⟩ := Option.isSome_iff_exists.mp hd
  rw [setEntry, marks_setDir]
  split_ifs with hx
  · rw [hx, marks, dir, hnode]
    rfl
  · rfl

variable {node : DirNode}

/-- The part of `rehash` that computes a tree object. -/
theorem rehashed_object (hnode : b.dirs.get d = some node)
    (hparent : ∀ x m, d = x ++ [m] → (b.dirs.get x).isSome = true)
    (hobject : ¬ (node.entries.rows = [] ∧ d = [])) :
    Rehashed sha1 d (gitObjectID sha1 "tree" (encodeTree node.entries.rows)) b (b.rehash sha1 d) := by
  let sha := gitObjectID sha1 "tree" (encodeTree node.entries.rows)
  let b₁ := b.setDir d { node with sha := sha, dirty := false }
  let b₂ : TreeBuilder := if sha ∈ b₁.seen then b₁
    else { b₁ with seen := sha :: b₁.seen, objects := b₁.objects ++ [⟨sha, encodeTree node.entries.rows⟩] }
  have hdirs : b₂.dirs = b₁.dirs := by
    simp only [b₂]
    split_ifs <;> rfl
  have hmarks : ∀ x, b₂.marks x = if x = d then some (sha, false) else b.marks x := by
    intro x
    rw [marks, hdirs]
    exact marks_setDir b d _ x
  have hentry : ∀ x m, b₂.entry x m = b.entry x m := by
    intro x m
    rw [TreeBuilder.entry, hdirs]
    refine entry_setDir_entries ?_ x m
    rw [dir, hnode]
    rfl
  have hseen : ∀ id, id ∈ b₂.seen ↔ id ∈ b.seen ∨ id = sha := by
    intro id
    simp only [b₂]
    split_ifs with hmem
    · exact ⟨.inl, fun hid => hid.elim (fun h => h) fun heq => heq ▸ hmem⟩
    · rw [mem_cons, or_comm]
      rfl
  have hobjects : b₂.objects = b.objects ∧ sha ∈ b.seen ∨
      b₂.objects = b.objects ++ [⟨sha, encodeTree node.entries.rows⟩] := by
    simp only [b₂]
    split_ifs with hmem
    · exact .inl ⟨rfl, hmem⟩
    · exact .inr rfl
  -- the same builder with the entry in the parent, if there is a parent
  have hrest : ∀ b' : TreeBuilder, (∀ x, b'.marks x = b₂.marks x) →
      (∀ x m, b'.entry x m = if x ++ [m] = d then some ⟨dirMode, sha, true⟩ else b₂.entry x m) →
      b'.seen = b₂.seen → b'.objects = b₂.objects → Rehashed sha1 d sha b b' := by
    intro b' hm he hs ho
    constructor
    case marks => exact fun x => (hm x).trans (hmarks x)
    case entry =>
      intro x m
      rw [he, hentry]
    case seen =>
      intro id hid
      rw [hs]
      exact (hseen id).mpr (.inl hid)
    case added =>
      rw [hs]
      exact .inl ((hseen sha).mpr (.inr rfl))
    case emitted =>
      intro id hid
      rw [hs, hseen] at hid
      rw [ho]
      rcases hobjects with ⟨_, hmem⟩ | hnew
      · exact .inl (hid.elim (fun h => h) fun heq => heq ▸ hmem)
      · refine hid.imp_right fun heq => ⟨heq, ⟨sha, encodeTree node.entries.rows⟩, ?_, heq.symm⟩
        rw [hnew]
        simp
    case objects =>
      intro o hmem
      rw [ho]
      rcases hobjects with ⟨hsame, _⟩ | hnew
      · rwa [hsame]
      · rw [hnew]
        exact mem_append_left _ hmem
    case ids =>
      intro o hmem
      rw [ho] at hmem
      rcases hobjects with ⟨hsame, _⟩ | hnew
      · exact .inl (by rwa [hsame] at hmem)
      · rw [hnew, mem_append, mem_singleton] at hmem
        exact hmem.imp_right fun heq => by rw [heq]
  rw [rehash, hnode]
  dsimp only
  rw [if_neg hobject]
  rcases eq_nil_or_concat d with hd | ⟨x, name, hd⟩
  · subst hd
    exact hrest b₂ (fun _ => rfl) (fun x m => by simp) rfl rfl
  · rw [concat_eq_append] at hd
    have hlast : d.getLast? = some name := by rw [hd, List.getLast?_concat]
    have hdrop : d.dropLast = x := by rw [hd, dropLast_concat]
    rw [hlast, hdrop]
    refine hrest (b₂.setEntry x name ⟨dirMode, sha, true⟩) (fun y => ?_) (fun y m => ?_) rfl rfl
    · refine marks_setEntry ?_ name _ y
      rw [hdirs, get_setDir]
      split_ifs
      · rfl
      · exact hparent x name hd
    · rw [entry_setEntry, hd]
      refine if_congr ⟨?_, ?_⟩ rfl rfl
      · rintro ⟨rfl, rfl⟩
        rfl
      · intro heq
        obtain ⟨hx, hm⟩ := append_inj' heq rfl
        cases hm
        exact ⟨hx, rfl⟩

theorem marks_eq_some (h : b.dirs.get d = some node) : b.marks d = some (node.sha, node.dirty) := by
  rw [marks, h]
  rfl

theorem exists_of_marks {sha : Bytes} {dirty : Bool} (h : b.marks d = some (sha, dirty)) :
    ∃ node, b.dirs.get d = some node ∧ node.sha = sha ∧ node.dirty = dirty := by
  obtain ⟨node, hnode, heq⟩ := Option.map_eq_some_iff.mp h
  exact ⟨node, hnode, congrArg Prod.fst heq, congrArg Prod.snd heq⟩

/-- A directory other than `d` is marked as it was. -/
theorem Rehashed.cases {b' : TreeBuilder} {sha : Bytes} (h : Rehashed sha1 d sha b b') {x : Path}
    (hnode : b'.dirs.get x = some node) : (x = d ∧ node.sha = sha ∧ node.dirty = false) ∨
      x ≠ d ∧ ∃ node', b.dirs.get x = some node' ∧ node'.sha = node.sha ∧
        node'.dirty = node.dirty := by
  have hm := h.marks x
  rw [marks_eq_some hnode] at hm
  split_ifs at hm with hx
  · exact .inl ⟨hx, congrArg Prod.fst (Option.some.inj hm), congrArg Prod.snd (Option.some.inj hm)⟩
  · exact .inr ⟨hx, exists_of_marks hm.symm⟩

section

variable (h : Builds sha1 blob b files) (hfiles : files.TreeLike)
include h hfiles

theorem Builds.apply (hfiles' : FileMap.TreeLike (files.write p c))
    (hnew : c ≠ none → ¬ files.IsDir p) (hold : c = none → files.get p ≠ none) :
    Builds sha1 blob (b.apply blob (p, c)) (files.write p c) := by
  have hget : (files.write p c).get p = c := by simp
  have hp : p ≠ [] := by
    cases c with
    | none => exact (hfiles.proper p (hold rfl)).1
    | some f => exact (hfiles'.proper p (by rw [hget]; simp)).1
  have hsplit : p.dropLast ++ [p.getLast hp] = p := dropLast_append_getLast hp
  have hlast : p.getLast? = some (p.getLast hp) := List.getLast?_eq_some_getLast hp
  have hsame : SameBut p.dropLast (p.getLast hp) files (files.write p c) := by
    have hwrite := sameBut_write files p.dropLast (p.getLast hp) c
    rwa [hsplit] at hwrite
  cases c with
  | none =>
    simp only [TreeBuilder.apply, hlast]
    exact h.remove hfiles hsame (by rw [hsplit]; exact hold rfl) (by rw [hsplit]; exact hget)
  | some f =>
    simp only [TreeBuilder.apply, hlast]
    exact h.set hfiles hfiles' hsame (by rw [hsplit]; exact hget)
      (by rw [hsplit]; exact hnew (by simp))

/-- **All changes.** -/
theorem Builds.applyAll {changes : List FileChange} (hchanges : Applicable files changes)
    (hfinal : FileMap.TreeLike (files.writeAll changes)) :
    Builds sha1 blob (changes.foldl (·.apply blob ·) b) (files.writeAll changes) := by
  induction changes generalizing b files with
  | nil => exact h
  | cons x rest ih =>
    obtain ⟨p, c⟩ := x
    obtain ⟨htree, hrest⟩ := hchanges.tail hfiles hfinal
    refine ih ?_ htree hrest hfinal
    exact h.apply hfiles htree (hchanges.new p c mem_cons_self)
      (hchanges.old p c mem_cons_self)

theorem Builds.congr {files' : FileMap}
    (hsame : ∀ p, files.get p = files'.get p) : Builds sha1 blob b files' := by
  have hdir : ∀ x, files.IsDir x ↔ files'.IsDir x := by
    intro x
    simp only [FileMap.IsDir, hsame]
  have hid : ∀ x, files.treeID sha1 blob x = files'.treeID sha1 blob x := fun x =>
    FileMap.treeID_congr sha1 blob hfiles fun p _ _ => hsame p
  constructor
  case dirs => exact fun x => (h.dirs x).trans (hdir x)
  case entries =>
    intro x m
    have hok := h.entries x m
    rw [EntryOk] at hok ⊢
    rw [hsame, hdir, hid] at hok
    exact hok
  case clean => exact fun x node hnode hc => (h.clean x node hnode hc).trans (hid x)
  case up => exact h.up
  case seen => exact h.seen

variable (hclean : ∀ m child, b.dirs.get (d ++ [m]) = some child → child.dirty = false)
include hclean

omit hfiles in
theorem Builds.get_entries (hnode : b.dirs.get d = some node) (n : String) :
    node.entries.get n =
      if n ∈ files.names d then some (files.gitEntry blob (files.treeID sha1 blob) d n) else none := by
  have hentry : b.entry d n = node.entries.get n := by
    rw [entry, hnode]
    rfl
  have hok := h.entries d n
  rw [EntryOk, hentry] at hok
  rw [FileMap.gitEntry]
  cases hget : files.get (d ++ [n]) with
  | some f =>
    rw [hget] at hok
    rw [hok, if_pos (FileMap.mem_names_iff.mpr (.inl (by rw [hget]; simp)))]
  | none =>
    rw [hget] at hok
    by_cases hdir : files.IsDir (d ++ [n])
    · obtain ⟨sha, hsha, hright⟩ := hok.1 hdir
      obtain ⟨child, hchild⟩ := Option.isSome_iff_exists.mp ((h.dirs _).mpr hdir)
      rw [hsha, if_pos (FileMap.mem_names_iff.mpr (.inr hdir)),
        hright child hchild (hclean n child hchild)]
    · rw [hok.2 hdir, if_neg]
      rw [FileMap.mem_names_iff, hget]
      simp [hdir]

/-- **One round of `root`**: a directory whose directories are all computed gets the id of its
canonical tree. -/
theorem Builds.rehashed (hdir : files.IsDir d) :
    Rehashed sha1 d (files.treeID sha1 blob d) b (b.rehash sha1 d) := by
  obtain ⟨node, hnode⟩ := Option.isSome_iff_exists.mp ((h.dirs d).mpr hdir)
  have hsha := FileMap.gitObjectID_entries sha1 blob hfiles (h.get_entries hclean hnode)
  by_cases hempty : node.entries.rows = [] ∧ d = []
  · -- the empty root
    have hid : files.treeID sha1 blob d = emptyTreeID sha1 := by
      rw [← hsha, hempty.1]
      rfl
    rw [hid, rehash, hnode]
    dsimp only
    rw [if_pos hempty]
    constructor
    case marks => exact marks_setDir b d _
    case entry =>
      intro x m
      have hne : x ++ [m] ≠ d := by
        rw [hempty.2]
        simp
      rw [if_neg hne]
      refine entry_setDir_entries ?_ x m
      rw [dir, hnode]
      rfl
    case seen => exact fun id hid => hid
    case added => exact .inr rfl
    case emitted => exact fun id hid => .inl hid
    case objects => exact fun o ho => ho
    case ids => exact fun o ho => .inl ho
  · rw [← hsha]
    refine rehashed_object hnode (fun x m hd => (h.dirs x).mpr ?_) hempty
    exact hdir.above (by rw [hd]; exact prefix_append x [m])

theorem Builds.rehash (hdir : files.IsDir d) : Builds sha1 blob (b.rehash sha1 d) files := by
  have hr := h.rehashed hfiles hclean hdir
  have hnone : files.get d = none := by
    by_contra hget
    exact hfiles.not_isDir hget hdir
  constructor
  case dirs =>
    intro x
    have hsome : ((b.rehash sha1 d).marks x).isSome = (b.marks x).isSome := by
      rw [hr.marks]
      split_ifs with hx
      · rw [hx, marks, Option.isSome_map, (h.dirs d).mpr hdir]
        rfl
      · rfl
    rw [marks, marks, Option.isSome_map, Option.isSome_map] at hsome
    rw [hsome]
    exact h.dirs x
  case entries =>
    intro x m
    rw [EntryOk, hr.entry]
    by_cases hx : x ++ [m] = d
    · rw [if_pos hx, hx, hnone]
      exact ⟨fun _ => ⟨_, rfl, fun _ _ _ => rfl⟩, absurd hdir⟩
    · have hok := h.entries x m
      rw [EntryOk] at hok
      rw [if_neg hx]
      cases hget : files.get (x ++ [m]) with
      | some f =>
        rw [hget] at hok
        exact hok
      | none =>
        rw [hget] at hok
        refine ⟨fun hisdir => ?_, hok.2⟩
        obtain ⟨sha, hsha, hright⟩ := hok.1 hisdir
        refine ⟨sha, hsha, fun node hnode hc => ?_⟩
        obtain ⟨-, node', hnode', -, hdirty⟩ := (hr.cases hnode).resolve_left fun h => hx h.1
        exact hright node' hnode' (hdirty.trans hc)
  case clean =>
    intro x node hnode hc
    rcases hr.cases hnode with ⟨rfl, hsha, -⟩ | ⟨-, node', hnode', hsha, hdirty⟩
    · exact hsha
    · rw [← hsha]
      exact h.clean x node' hnode' (hdirty.trans hc)
  case up =>
    intro x m node hnode hdirty
    obtain ⟨-, -, hdone⟩ | ⟨-, node', hnode', -, hsame⟩ := hr.cases hnode
    · rw [hdone] at hdirty
      cases hdirty
    have hxd : x ≠ d := by
      rintro rfl
      rw [hclean m node' hnode'] at hsame
      rw [← hsame] at hdirty
      cases hdirty
    obtain ⟨parent, hparent, hpdirty⟩ := h.up x m node' hnode' (hsame.trans hdirty)
    have hm := hr.marks x
    rw [if_neg hxd, marks_eq_some hparent, hpdirty] at hm
    obtain ⟨parent', hget, -, hd'⟩ := exists_of_marks hm
    exact ⟨parent', hget, hd'⟩
  case seen =>
    intro x node hnode hc
    rcases hr.cases hnode with ⟨rfl, hsha, -⟩ | ⟨-, node', hnode', hsha, hdirty⟩
    · rw [hsha]
      exact hr.added
    · rw [← hsha]
      exact (h.seen x node' hnode' (hdirty.trans hc)).imp_left (hr.seen _)

end

/-- The loop of `root`: the directories that are still to be computed are the dirty ones, and deeper
ones come first. -/
structure Rebuilding (sha1 : Bytes → Bytes) (blob : String → Bytes) (files : FileMap) (todo : List Path)
    (b : TreeBuilder) : Prop where
  builds : Builds sha1 blob b files
  dirty : ∀ d node, b.dirs.get d = some node → (node.dirty = true ↔ d ∈ todo)
  present : ∀ d, d ∈ todo → files.IsDir d
  nodup : todo.Nodup
  order : todo.Pairwise fun p q => q.length ≤ p.length

variable {todo : List Path}

theorem Rebuilding.clean (h : Rebuilding sha1 blob files (d :: todo) b) (m : String)
    (child : DirNode) (hchild : b.dirs.get (d ++ [m]) = some child) : child.dirty = false := by
  rw [← Bool.not_eq_true, h.dirty _ child hchild]
  intro hmem
  rcases mem_cons.mp hmem with heq | hmem
  · simp at heq
  · have hle := rel_of_pairwise_cons h.order hmem
    simp at hle

theorem Rebuilding.step (hfiles : files.TreeLike) (h : Rebuilding sha1 blob files (d :: todo) b) :
    Rebuilding sha1 blob files todo (b.rehash sha1 d) where
  builds := h.builds.rehash hfiles h.clean (h.present d mem_cons_self)
  dirty := by
    intro x node hnode
    have hr := h.builds.rehashed hfiles h.clean (h.present d mem_cons_self)
    rcases hr.cases hnode with ⟨rfl, -, hdone⟩ | ⟨hx, node', hnode', -, hdirty⟩
    · simp [hdone, (nodup_cons.mp h.nodup).1]
    · rw [← hdirty, h.dirty x node' hnode']
      simp [hx]
  present x hx := h.present x (mem_cons_of_mem _ hx)
  nodup := (nodup_cons.mp h.nodup).2
  order := (pairwise_cons.mp h.order).2

/-- What `root` leaves: every directory is computed, and what was seen then was seen before or is
the tree of a directory that was emitted. -/
structure Computed (sha1 : Bytes → Bytes) (blob : String → Bytes) (files : FileMap) (b b' : TreeBuilder) :
    Prop where
  builds : Rebuilding sha1 blob files [] b'
  emitted : ∀ id, id ∈ b'.seen → id ∈ b.seen ∨
    ((∃ d, files.IsDir d ∧ id = files.treeID sha1 blob d) ∧ ∃ o ∈ b'.objects, o.id = id)
  objects : ∀ o, o ∈ b.objects → o ∈ b'.objects
  ids : ∀ o, o ∈ b'.objects → o ∈ b.objects ∨ o.id = gitObjectID sha1 "tree" o.data

theorem Rebuilding.foldl (hfiles : files.TreeLike) (h : Rebuilding sha1 blob files todo b) :
    Computed sha1 blob files b (todo.foldl (TreeBuilder.rehash sha1) b) := by
  induction todo generalizing b with
  | nil => exact ⟨h, fun _ hid => .inl hid, fun _ ho => ho, fun _ ho => .inl ho⟩
  | cons d todo ih =>
    have hdir := h.present d mem_cons_self
    have hr := h.builds.rehashed hfiles h.clean hdir
    have hc := ih (h.step hfiles)
    constructor
    case builds => exact hc.builds
    case emitted =>
      intro id hid
      rcases hc.emitted id hid with hseen | hnew
      · rcases hr.emitted id hseen with hold | ⟨heq, o, ho, hoid⟩
        · exact .inl hold
        · exact .inr ⟨⟨d, hdir, heq⟩, o, hc.objects o ho, hoid⟩
      · exact .inr hnew
    case objects => exact fun o ho => hc.objects o (hr.objects o ho)
    case ids =>
      intro o ho
      rcases hc.ids o ho with hold | hnew
      · exact hr.ids o hold
      · exact .inr hnew

/-- **`root`** computes every directory. -/
theorem Builds.root (h : Builds sha1 blob b files) (hfiles : files.TreeLike) :
    Computed sha1 blob files b (b.root sha1) := by
  have hmem : ∀ d, d ∈ b.dirtyDirs ↔ ∃ node, b.dirs.get d = some node ∧ node.dirty = true := by
    intro d
    rw [dirtyDirs, mem_insertionSort, mem_map]
    constructor
    · rintro ⟨⟨d', node⟩, hrow, rfl⟩
      rw [mem_filter, mem_rows_iff] at hrow
      exact ⟨node, hrow⟩
    · rintro ⟨node, hnode, hdirty⟩
      refine ⟨(d, node), mem_filter.mpr ⟨(mem_rows_iff _ _ _).mpr hnode, hdirty⟩, rfl⟩
  let key : Path → ℕᵒᵈ ×ₗ String := fun p => toLex (.toDual p.length, joinParts p)
  refine Rebuilding.foldl hfiles ⟨h, fun d node hnode => ?_, fun d hd => ?_, ?_, ?_⟩
  · rw [hmem]
    constructor
    · intro hdirty
      exact ⟨node, hnode, hdirty⟩
    · rintro ⟨node', hnode', hdirty⟩
      rw [hnode] at hnode'
      rw [Option.some.inj hnode']
      exact hdirty
  · obtain ⟨node, hnode, -⟩ := (hmem d).mp hd
    exact (h.dirs d).mp (by rw [hnode]; rfl)
  · refine (perm_insertionSort _ _).nodup_iff.mpr ?_
    exact b.dirs.nodup.sublist (filter_sublist.map Prod.fst)
  · refine (pairwise_insertionSort_of_key key (fun p q => Prod.Lex.toLex_le_toLex.symm) _).imp ?_
    exact Prod.Lex.monotone_fst _ _

variable {b' : TreeBuilder}

section

variable (h : Computed sha1 blob files b b')
include h

theorem Computed.clean (hd : files.IsDir d) :
    ∃ node, b'.dirs.get d = some node ∧ node.dirty = false := by
  obtain ⟨node, hnode⟩ := Option.isSome_iff_exists.mp ((h.builds.builds.dirs d).mpr hd)
  refine ⟨node, hnode, ?_⟩
  rw [← Bool.not_eq_true, h.builds.dirty d node hnode]
  simp

theorem Computed.rootID : b'.rootID = files.treeID sha1 blob [] := by
  obtain ⟨node, hnode, hclean⟩ := h.clean (.inl rfl)
  rw [TreeBuilder.rootID, dir, hnode]
  exact h.builds.builds.clean [] node hnode hclean

theorem Computed.mem_seen (hd : files.IsDir d) :
    files.treeID sha1 blob d ∈ b'.seen ∨ files.treeID sha1 blob d = emptyTreeID sha1 := by
  obtain ⟨node, hnode, hclean⟩ := h.clean hd
  rw [← h.builds.builds.clean d node hnode hclean]
  exact h.builds.builds.seen d node hnode hclean

/-- The objects are handed over. -/
theorem Computed.reset :
    Computed sha1 blob files { b' with objects := [] } { b' with objects := [] } := by
  obtain ⟨⟨hdirs, hentries, hclean, hup, hseen⟩, hdirty, hpresent, hnd, horder⟩ := h.builds
  exact ⟨⟨⟨hdirs, hentries, hclean, hup, hseen⟩, hdirty, hpresent, hnd, horder⟩,
    fun _ hid => .inl hid, fun _ ho => ho, fun _ ho => .inl ho⟩

end

theorem isDir_empty : FileMap.IsDir .empty d ↔ d = [] := by
  simp [FileMap.IsDir]

theorem treeLike_empty : FileMap.TreeLike .empty :=
  ⟨fun _ hp => absurd rfl hp, fun _ _ hp => absurd rfl hp⟩

theorem builds_empty (sha1 : Bytes → Bytes) (blob : String → Bytes) :
    Builds sha1 blob empty .empty := by
  have hget : ∀ d, empty.dirs.get d = if d = [] then some ⟨.empty, [], true⟩ else none := by
    intro d
    rw [empty, get_set]
    rfl
  have hdirty : ∀ d node, empty.dirs.get d = some node → node.dirty ≠ false := by
    intro d node hnode
    rw [hget] at hnode
    split_ifs at hnode
    cases hnode
    decide
  constructor
  case dirs =>
    intro d
    rw [hget, isDir_empty]
    split_ifs with hd <;> simp [hd]
  case entries =>
    intro d n
    have hnone : empty.entry d n = none := by
      rw [entry, hget]
      split_ifs <;> rfl
    rw [EntryOk, hnone]
    refine ⟨fun hdir => ?_, fun _ => rfl⟩
    have hnil := isDir_empty.mp hdir
    simp at hnil
  case clean => exact fun d node hnode hc => absurd hc (hdirty d node hnode)
  case up =>
    intro d n node hnode
    rw [hget, if_neg (by simp)] at hnode
    cases hnode
  case seen => exact fun d node hnode hc => absurd hc (hdirty d node hnode)

/-- What was computed so far. -/
def computed (b : TreeBuilder) : List Bytes × List GitObject := (b.seen, b.objects)

theorem computed_markDirty (b : TreeBuilder) (q : Path) : (b.markDirty q).computed = b.computed :=
  Prod.ext (marked_markDirty b q).seen (marked_markDirty b q).objects

theorem computed_pruneFrom (b : TreeBuilder) (r : List String) :
    (b.pruneFrom r).1.computed = b.computed := by
  induction r generalizing b with
  | nil => rfl
  | cons name above ih =>
    rw [pruneFrom]
    split_ifs
    · exact ih _
    · rfl

theorem computed_apply (blob : String → Bytes) (b : TreeBuilder) (x : FileChange) :
    (b.apply blob x).computed = b.computed := by
  rw [TreeBuilder.apply]
  split
  · rfl
  · rw [remove]
    split
    · rfl
    · rw [computed_markDirty, computed_pruneFrom]
      rfl
  · rw [set, computed_markDirty]
    rfl

theorem computed_foldl_apply (blob : String → Bytes) (b : TreeBuilder) (l : List FileChange) :
    (l.foldl (·.apply blob ·) b).computed = b.computed := by
  induction l generalizing b with
  | nil => rfl
  | cons x l ih => rw [foldl_cons, ih, computed_apply]

/-- **`newTreeBuilder`**: every directory is computed, and nothing but their trees was seen. -/
theorem computed_new (sha1 : Bytes → Bytes) (blob : String → Bytes) (hfiles : files.TreeLike) :
    Computed sha1 blob files (new sha1 blob files) (new sha1 blob files) ∧
      ∀ id, id ∈ (new sha1 blob files).seen →
        ∃ d, files.IsDir d ∧ id = files.treeID sha1 blob d := by
  let changes : List FileChange := files.rows.map fun row => (row.1, some row.2)
  have hkeys : changes.map Prod.fst = files.rows.map Prod.fst := by
    simp [changes]
  have hrow : ∀ {p : Path} {c : Option ProjectedFile}, (p, c) ∈ changes →
      files.get p ≠ none ∧ c ≠ none := by
    intro p c hmem
    obtain ⟨⟨q, f⟩, hq, heq⟩ := mem_map.mp hmem
    cases heq
    simp [(files.mem_rows_iff q f).mp hq]
  have hnodup : (changes.map Prod.fst).Nodup := hkeys ▸ files.nodup
  have hwritten : ∀ p, (Table.writeAll .empty changes).get p = files.get p :=
    files.get_writeAll_rows
  have htree := hfiles.congr hwritten
  have happ : Applicable .empty changes := by
    refine ⟨hnodup, ?_, fun p c hmem _ hdir => ?_, fun p c hmem hc => absurd hc (hrow hmem).2⟩
    · rw [nodup_iff_pairwise_ne, pairwise_map] at hnodup
      refine List.Pairwise.imp_of_mem ?_ hnodup
      rintro ⟨p, c⟩ ⟨q, c'⟩ hp hq hne hle
      exact hne (hfiles.apart q p (hrow hq).1 (hrow hp).1 hle).symm
    · exact (hfiles.proper p (hrow hmem).1).1 (isDir_empty.mp hdir)
  have hb := ((builds_empty sha1 blob).applyAll treeLike_empty happ htree).congr htree hwritten
  have hc := hb.root hfiles
  have hnew : new sha1 blob files =
      { (changes.foldl (·.apply blob ·) empty).root sha1 with objects := [] } := by
    simp only [new, changes, foldl_map]
  have hseen : ∀ id, id ∈ (new sha1 blob files).seen →
      ∃ d, files.IsDir d ∧ id = files.treeID sha1 blob d := by
    intro id hid
    rw [hnew] at hid
    rcases hc.emitted id hid with hold | ⟨hd, -⟩
    · have hnone := congrArg Prod.fst (computed_foldl_apply blob empty changes)
      rw [show (changes.foldl (·.apply blob ·) empty).seen = [] from hnone] at hold
      cases hold
    · exact hd
  refine ⟨?_, hseen⟩
  rw [hnew]
  exact hc.reset

end TreeBuilder

/-! ## Runs -/

/-- A projection while commits are appended to it. -/
structure TreeRun where
  /-- The files after the last commit. -/
  files : FileMap
  /-- The builder in memory. -/
  builder : TreeBuilder
  /-- The tree objects that were put in packs. -/
  emitted : List GitObject
  /-- The files before each of the commits. -/
  past : List FileMap

/-- What happens to a projection. -/
inductive TreeAction where
  /-- A commit, with the targets and their listings. -/
  | commit (targets : List Path) (listing : Path → List (Path × FileEntry))
  /-- `appendLazy` starts again, with a builder for the saved files. -/
  | restart

/-- The action is a commit. -/
def TreeAction.isCommit : TreeAction → Bool
  | .commit _ _ => true
  | .restart => false

namespace TreeRun

variable (sha1 : Bytes → Bytes) (blob : String → Bytes)

/-- A projection of saved files. -/
def start (files : FileMap) : TreeRun := ⟨files, .new sha1 blob files, [], []⟩

/-- The loop of `appendLazy` over the commits, and its start. -/
def step (s : TreeRun) : TreeAction → TreeRun
  | .commit targets listing =>
    let applied := applyListing s.files targets listing
    let builder := (applied.2.foldl (·.apply blob ·) s.builder).root sha1
    ⟨applied.1, { builder with objects := [] }, s.emitted ++ builder.objects, s.past ++ [s.files]⟩
  | .restart => { s with builder := .new sha1 blob s.files }

/-- The commit leaves a map of files that a tree can have, and none of its files is at a path that
was a directory. -/
def KeepsDirectories (s : TreeRun) : TreeAction → Prop
  | .commit targets listing =>
    FileMap.TreeLike (applyListing s.files targets listing).1 ∧
      ∀ p, (applyListing s.files targets listing).1.get p ≠ none → ¬ s.files.IsDir p
  | .restart => True

/-- The id is that of a tree of one of the maps. -/
def TreeOf (maps : List FileMap) (id : Bytes) : Prop :=
  ∃ files ∈ maps, ∃ d, files.IsDir d ∧ id = files.treeID sha1 blob d

/-- The object with the id was put in a pack. -/
def Emitted (s : TreeRun) (id : Bytes) : Prop :=
  ∃ o ∈ s.emitted, o.id = id ∧ gitObjectID sha1 "tree" o.data = id

/-- What every run keeps. -/
structure Sound (s : TreeRun) : Prop where
  files : s.files.TreeLike
  computed : TreeBuilder.Computed sha1 blob s.files s.builder s.builder
  objects : s.builder.objects = []
  seen : ∀ id, id ∈ s.builder.seen → s.Emitted sha1 id ∨ TreeOf sha1 blob (s.past ++ [s.files]) id
  emitted : ∀ o, o ∈ s.emitted → o.id = gitObjectID sha1 "tree" o.data
  trees : s.past ≠ [] → ∀ d, s.files.IsDir d →
    s.files.treeID sha1 blob d = emptyTreeID sha1 ∨ s.Emitted sha1 (s.files.treeID sha1 blob d) ∨
      TreeOf sha1 blob s.past (s.files.treeID sha1 blob d)

variable {sha1 blob} {s : TreeRun} {files : FileMap}

theorem sound_start (hfiles : files.TreeLike) : Sound sha1 blob (start sha1 blob files) := by
  obtain ⟨hcomputed, hseen⟩ := TreeBuilder.computed_new sha1 blob hfiles
  constructor
  case files => exact hfiles
  case computed => exact hcomputed
  case objects => rfl
  case seen => exact fun id hid => .inr ⟨files, by simp [start], hseen id hid⟩
  case emitted =>
    intro o ho
    cases ho
  case trees => exact absurd rfl

theorem Sound.restart (h : Sound sha1 blob s) : Sound sha1 blob (step sha1 blob s .restart) := by
  obtain ⟨hcomputed, hseen⟩ := TreeBuilder.computed_new sha1 blob h.files
  constructor
  case files => exact h.files
  case computed => exact hcomputed
  case objects => rfl
  case seen => exact fun id hid => .inr ⟨s.files, by simp [step], hseen id hid⟩
  case emitted => exact h.emitted
  case trees => exact h.trees

variable {listing : Path → List (Path × FileEntry)} {targets : List Path}

theorem applicable_changes (hfiles : files.TreeLike)
    (htree : FileMap.TreeLike (applyListing files targets listing).1)
    (hdirs : ∀ p, (applyListing files targets listing).1.get p ≠ none → ¬ files.IsDir p) :
    TreeBuilder.Applicable files (applyListing files targets listing).2 := by
  have hmem := applyListing_changes files targets listing
  have hnodup : ((applyListing files targets listing).2.map Prod.fst).Nodup :=
    ((perm_sortByPath _).map Prod.fst).nodup_iff.mpr (nodup_listingChanges files targets listing)
  -- every changed path is a path of the old or of the new files
  have hvalid : ∀ x ∈ (applyListing files targets listing).2, ∀ a ∈ x.1, validSegment a = true := by
    rintro ⟨p, c⟩ hx
    obtain ⟨hget, hne⟩ := (hmem p c).mp hx
    cases hc : c with
    | some f => exact (htree.proper p (by rw [hget, hc]; simp)).2
    | none => exact (hfiles.proper p (by rw [← hc]; exact hne)).2
  constructor
  case nodup => exact hnodup
  case order =>
    have hle : (applyListing files targets listing).2.Pairwise fun x y =>
        renderPath x.1 ≤ renderPath y.1 := pairwise_insertionSort _ _
    rw [nodup_iff_pairwise_ne, pairwise_map] at hnodup
    refine List.Pairwise.imp_of_mem ?_ (hle.and hnodup)
    rintro x y hx hy ⟨hxy, hne⟩ hunder
    exact hne (renderPath_injective (hvalid x hx) (hvalid y hy)
      (le_antisymm hxy (renderPath_le hunder)))
  case new =>
    intro p c hx hc
    exact hdirs p (by rw [((hmem p c).mp hx).1]; exact hc)
  case old =>
    intro p c hx hc
    rw [← hc]
    exact ((hmem p c).mp hx).2

theorem Sound.commit (h : Sound sha1 blob s) (hok : KeepsDirectories s (.commit targets listing)) :
    Sound sha1 blob (step sha1 blob s (.commit targets listing)) := by
  obtain ⟨htree, hdirs⟩ := hok
  have happ := applicable_changes h.files htree hdirs
  have hwritten := get_writeAll_changes s.files targets listing
  have hfinal := htree.congr hwritten
  have hb := (h.computed.builds.builds.applyAll h.files happ hfinal).congr hfinal hwritten
  have hc := hb.root htree
  have hsame := TreeBuilder.computed_foldl_apply blob s.builder
    (applyListing s.files targets listing).2
  have hseen := congrArg Prod.fst hsame
  have hobjects := (congrArg Prod.snd hsame).trans h.objects
  -- what was seen before belongs to a map of the past now
  have hemitted : ∀ id, s.Emitted sha1 id →
      (step sha1 blob s (.commit targets listing)).Emitted sha1 id := by
    rintro id ⟨o, ho, hid⟩
    exact ⟨o, mem_append_left _ ho, hid⟩
  have hids : ∀ o, o ∈ (step sha1 blob s (.commit targets listing)).emitted →
      o.id = gitObjectID sha1 "tree" o.data := by
    intro o ho
    rcases mem_append.mp ho with hold | hnew
    · exact h.emitted o hold
    · rcases hc.ids o hnew with hbefore | hid
      · rw [show (List.foldl _ _ _ : TreeBuilder).objects = [] from hobjects] at hbefore
        cases hbefore
      · exact hid
  have hfrom : ∀ id, id ∈ (step sha1 blob s (.commit targets listing)).builder.seen →
      (step sha1 blob s (.commit targets listing)).Emitted sha1 id ∨
        TreeOf sha1 blob (s.past ++ [s.files]) id := by
    intro id hid
    rcases hc.emitted id hid with hbefore | ⟨-, o, ho, hoid⟩
    · rw [show (List.foldl _ _ _ : TreeBuilder).seen = s.builder.seen from hseen] at hbefore
      exact (h.seen id hbefore).imp_left (hemitted id)
    · have hmem := mem_append_right s.emitted ho
      exact .inl ⟨o, hmem, hoid, (hids o hmem).symm.trans hoid⟩
  constructor
  case files => exact htree
  case computed => exact hc.reset
  case objects => rfl
  case seen =>
    intro id hid
    refine (hfrom id hid).imp_right ?_
    rintro ⟨files, hmem, hd⟩
    exact ⟨files, mem_append_left _ hmem, hd⟩
  case emitted => exact hids
  case trees =>
    intro _ d hd
    rcases hc.mem_seen hd with hmem | hempty
    · exact .inr (hfrom _ hmem)
    · exact .inl hempty

theorem Sound.step {a : TreeAction} (h : Sound sha1 blob s) (hok : KeepsDirectories s a) :
    Sound sha1 blob (step sha1 blob s a) := by
  cases a with
  | commit => exact h.commit hok
  | restart => exact h.restart

theorem run_commits (s' : TreeRun) (hfiles : s'.files = s.files) {as : List TreeAction}
    (h : Machine.Meets (TreeRun.step sha1 blob) KeepsDirectories s as) :
    Machine.Meets (TreeRun.step sha1 blob) KeepsDirectories s' (as.filter TreeAction.isCommit) ∧
      (Machine.run (TreeRun.step sha1 blob) s' (as.filter TreeAction.isCommit)).files =
        (Machine.run (TreeRun.step sha1 blob) s as).files := by
  induction as generalizing s s' with
  | nil => exact ⟨trivial, hfiles⟩
  | cons a as ih =>
    obtain ⟨hok, hrest⟩ := h
    cases a with
    | restart => exact ih s' hfiles hrest
    | commit targets listing =>
      have hnext : (TreeRun.step sha1 blob s' (.commit targets listing)).files =
          (TreeRun.step sha1 blob s (.commit targets listing)).files := by
        simp only [TreeRun.step, hfiles]
      have hok' : KeepsDirectories s' (.commit targets listing) := by
        simp only [KeepsDirectories, hfiles]
        exact hok
      obtain ⟨hmeets, hrun⟩ := ih _ hnext hrest
      exact ⟨⟨hok', hmeets⟩, hrun⟩

/-- **Incremental trees are the canonical ones.** In a run in which no commit puts a file where a
directory was, the root is that of the canonical tree of the files, the same as a new builder over
them gives and as without the restarts; and after a commit every tree under it is the empty one, was
emitted, or belongs to the files before one of the commits. -/
theorem incremental_trees_canonical (sha1 : Bytes → Bytes) (blob : String → Bytes) {files : FileMap}
    (hfiles : files.TreeLike) {as : List TreeAction}
    (h : Machine.Meets (TreeRun.step sha1 blob) KeepsDirectories (start sha1 blob files) as) :
    let s := Machine.run (TreeRun.step sha1 blob) (start sha1 blob files) as
    s.builder.rootID = s.files.treeID sha1 blob [] ∧
      (TreeBuilder.new sha1 blob s.files).rootID = s.builder.rootID ∧
      (Machine.run (TreeRun.step sha1 blob) (start sha1 blob files)
        (as.filter TreeAction.isCommit)).builder.rootID = s.builder.rootID ∧
      (s.past ≠ [] → ∀ d, s.files.IsDir d →
        s.files.treeID sha1 blob d = emptyTreeID sha1 ∨
          s.Emitted sha1 (s.files.treeID sha1 blob d) ∨
          TreeOf sha1 blob s.past (s.files.treeID sha1 blob d)) := by
  have hsound : ∀ {bs : List TreeAction},
      Machine.Meets (TreeRun.step sha1 blob) KeepsDirectories (start sha1 blob files) bs →
      Sound sha1 blob (Machine.run (TreeRun.step sha1 blob) (start sha1 blob files) bs) := fun hbs =>
    Machine.run_induction (Sound sha1 blob) (fun _ _ hs hok => hs.step hok) (sound_start hfiles) hbs
  have hs := hsound h
  obtain ⟨hcommits, hsame⟩ := run_commits (start sha1 blob files) rfl h
  refine ⟨hs.computed.rootID, ?_, ?_, hs.trees⟩
  · exact (TreeBuilder.computed_new sha1 blob hs.files).1.rootID.trans hs.computed.rootID.symm
  · rw [(hsound hcommits).computed.rootID, hs.computed.rootID, hsame]

/-- The listing of a folder whose file has another name. -/
def renamedListing (_ : Path) : List (Path × FileEntry) :=
  [(["p", "y"], ⟨0o100644, "blob", "old", 1⟩)]

/-- A folder with one file. -/
def folder : FileMap := ⟨[(["p", "x"], ⟨"100644", "old"⟩)], by decide⟩

/-- The listing of a file in place of the folder. -/
def foldedListing (_ : Path) : List (Path × FileEntry) := [(["p"], ⟨0o100644, "blob", "new", 1⟩)]

variable {f : ProjectedFile} {p : Path}

theorem eq_of_get_ne_none (h : files.rows = [(p, f)]) {q : Path} (hq : files.get q ≠ none) :
    q = p := by
  by_contra hne
  refine hq ?_
  rw [Table.get, h, lookup_cons_of_ne _ _ hne]
  rfl

theorem treeLike_single (h : files.rows = [(p, f)])
    (hp : p ≠ [] ∧ ∀ a ∈ p, validSegment a = true) : files.TreeLike where
  proper q hq := by
    rw [eq_of_get_ne_none h hq]
    exact hp
  apart q r hq hr _ := (eq_of_get_ne_none h hq).trans (eq_of_get_ne_none h hr).symm

theorem incremental_trees_canonical_renamed :
    let s := Machine.run (TreeRun.step (fun bytes => bytes) fun _ => [1])
      (start (fun bytes => bytes) (fun _ => [1]) folder) [.commit [["p"]] renamedListing, .restart]
    s.files.rows = [(["p", "y"], ⟨"100644", "old"⟩)] ∧
      s.builder.rootID = s.files.treeID (fun bytes => bytes) (fun _ => [1]) [] := by
  have hrows : (applyListing folder [["p"]] renamedListing).1.rows =
      [(["p", "y"], ⟨"100644", "old"⟩)] := by decide +kernel
  have hkeeps : KeepsDirectories (start (fun bytes => bytes) (fun _ => [1]) folder)
      (.commit [["p"]] renamedListing) := by
    refine ⟨treeLike_single hrows (by decide), fun p hp hdir => ?_⟩
    rw [eq_of_get_ne_none hrows hp] at hdir
    rcases hdir with hnil | ⟨q, hq, hle, -⟩
    · cases hnil
    · rw [eq_of_get_ne_none (show folder.rows = _ from rfl) hq] at hle
      revert hle
      decide
  have hmeets : Machine.Meets (TreeRun.step (fun bytes => bytes) fun _ => [1]) KeepsDirectories
      (start (fun bytes => bytes) (fun _ => [1]) folder) [.commit [["p"]] renamedListing,
        .restart] :=
    ⟨hkeeps, trivial, trivial⟩
  exact ⟨hrows, (incremental_trees_canonical _ _ (treeLike_single rfl (by decide)) hmeets).1⟩

/-- **A folder that turns into a file is lost**: the new file is written first, and deleting the old
file then prunes the folder together with the entry of the new file. The commit gets the empty
tree. -/
theorem folded_file_lost :
    let s := Machine.run (TreeRun.step (fun bytes => bytes) fun _ => [1]) (start (fun bytes => bytes) (fun _ => [1]) folder)
      [.commit [["p"]] foldedListing]
    folder.TreeLike ∧ s.files.rows = [(["p"], ⟨"100644", "new"⟩)] ∧
      s.builder.rootID = emptyTreeID (fun bytes => bytes) ∧
      s.builder.rootID ≠ s.files.treeID (fun bytes => bytes) (fun _ => [1]) [] := by
  refine ⟨treeLike_single rfl (by decide), ?_⟩
  decide +kernel

end TreeRun

end GitSlice
