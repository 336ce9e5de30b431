import GitSlice.LazyFS.NewLayer
import GitSlice.LazyFS.Refinement

/-! # Edits are the difference from the base
`Edits` looks only at paths at and under local entries. It returns what comparing every file and
symlink of the base with every one of the merged view gives: a path that is not looked at shows what
the base has there. -/

namespace GitSlice.LazyFS.FS

open List Option

variable {c : Content} {s : FS} {p : Path} {n : ViewNode}

/-- The content hash a file or symlink shows. -/
def shownHash (c : Content) (s : FS) (n : ViewNode) : String :=
  if n.base then n.hash
  else if n.kind = .symlink then c.hash (utf8 n.target)
  else
    match n.file with
    | some name => c.hash ((s.files.get name).getD [])
    | none => n.hash

/-- The file or symlink `Stat` shows at a path: its content hash, its mode and its local file. -/
def shownFile (c : Content) (s : FS) (p : Path) : Option (String × Nat × Option Nat) :=
  match s.resolve "stat" p with
  | .error _ => none
  | .ok n => if n.kind = .dir then none else some (shownHash c s n, n.mode, n.file)

/-- The difference between the workspace and its base at a path. -/
def difference (c : Content) (s : FS) (p : Path) : Option Change :=
  match shownFile c s p, fileEntry (s.base.lookup p) with
  | none, none => none
  | none, some _ => some .delete
  | some (hash, mode, file), none => some (.upsert hash mode file)
  | some (hash, mode, file), some b =>
    if b.contentHash = hash ∧ b.mode = mode then none else some (.upsert hash mode file)

/-! ## One path -/

theorem walk_of_dirs {t : Tree} {done : Path} {l : List String}
    (h : ∀ r, r <+: l → r ≠ [] → t (done ++ r) = some .dir) : t.walk done l = .ok () := by
  induction l generalizing done with
  | nil => rfl
  | cons name rest ih =>
    have hname : t (done ++ [name]) = some .dir := h [name] ⟨rest, rfl⟩ (by simp)
    rw [Tree.walk, hname]
    refine ih fun r hr hne => ?_
    have hdeep := h (name :: r) (cons_prefix_cons.mpr ⟨rfl, hr⟩) (by simp)
    simpa using hdeep

theorem Sound.resolve_eq (hs : s.Sound) (op : String) (hn : s.lookup p = some n) :
    s.resolve op p = .ok n := by
  let c : Content := ⟨fun _ => [], fun _ => ""⟩
  by_cases hp : p = []
  · subst hp
    cases hn
    rfl
  have hparent : Tree.parent (s.view c) p = .ok () := by
    refine walk_of_dirs fun r hr hne => ?_
    obtain ⟨hle, hneq⟩ := (prefix_dropLast_iff hne).mp hr
    exact (kindAt_eq_dir c).mp (hs.kindAt_above (by rw [kindAt, hn]; simp) hle hneq)
  rw [resolve, if_neg hp, resolveParent_eq c op hp, hparent]
  simp only [Except.mapError, bind, Except.bind, hn]

theorem resolve_eq_none (op : String) (hn : s.lookup p = none) :
    ∃ e, s.resolve op p = .error e := by
  have hp : p ≠ [] := by
    rintro rfl
    cases hn
  rw [resolve, if_neg hp]
  cases s.resolveParent op p with
  | error e => exact ⟨e, rfl⟩
  | ok => exact ⟨.path op p .notExist, by simp only [bind, Except.bind, hn]⟩

theorem Sound.shownFile_eq (hs : s.Sound) :
    shownFile c s p = ((s.lookup p).filter fun n => n.kind ≠ .dir).map fun n =>
      (shownHash c s n, n.mode, n.file) := by
  rw [shownFile]
  cases hl : s.lookup p with
  | none =>
    obtain ⟨e, he⟩ := resolve_eq_none "stat" hl
    rw [he]
    rfl
  | some n =>
    rw [hs.resolve_eq "stat" hl]
    by_cases hk : n.kind = .dir <;> simp [hk]

theorem base_node (hn : s.lookup p = some n) (hbase : n.base = true) :
    ∃ e, s.base.lookup p = some e ∧ n = baseNode e := by
  rcases lookup_cases hn with ⟨-, rfl⟩ | hfrom | ⟨e, -, hlocal⟩
  · cases hbase
  · exact hfrom
  · cases e with
    | whiteout => cases hlocal
    | _ =>
      cases hlocal
      cases hbase

theorem Sound.nodeHash_eq (hs : s.Sound) (hn : s.lookup p = some n) (hbase : n.base = false) :
    s.nodeHash c n = .ok (shownHash c s n) := by
  rw [nodeHash, shownHash, hbase]
  simp only [Bool.false_eq_true, if_false]
  split_ifs with hk
  · rfl
  · cases hfile : n.file with
    | none => rfl
    | some name =>
      have hp : p ≠ [] := by
        rintro rfl
        cases hn
        cases hfile
      obtain ⟨data, hdata⟩ := ne_none_iff_exists'.mp
        (hs.present p n.mode name (entry_of_file hn hp hfile))
      simp only [hdata, getD_some]

/-- **One path** of `Edits` is compared as it should be. -/
theorem Sound.editAt_eq (hs : s.Sound) (c : Content) (p : Path) :
    s.editAt c p = .ok ((difference c s p).map fun change => ⟨p, change⟩) := by
  rw [editAt, difference, hs.shownFile_eq]
  cases hl : (s.lookup p).filter fun n => n.kind ≠ .dir with
  | none => cases hb : fileEntry (s.base.lookup p) <;> rfl
  | some n =>
    obtain ⟨hn, hk⟩ := filter_eq_some_iff.mp hl
    simp only [map_some]
    by_cases hbase : n.base = true
    · -- the base shows, so nothing differs
      obtain ⟨b, hb, rfl⟩ := base_node hn hbase
      have hfile : fileEntry (s.base.lookup p) = some b := by
        rw [hb]
        exact filter_eq_some_iff.mpr ⟨rfl, hk⟩
      rw [hfile]
      simp [shownHash, baseNode]
    · have hfalse : n.base = false := Bool.not_eq_true _ ▸ hbase
      rw [if_neg hbase, hs.nodeHash_eq hn hfalse]
      simp only [bind, Except.bind]
      cases hb : fileEntry (s.base.lookup p) with
      | none => rfl
      | some b =>
        by_cases hsame : b.contentHash = shownHash c s n ∧ b.mode = n.mode
        · simp [hsame]
        · simp [hsame]

/-! ## All paths -/

theorem mem_candidates :
    p ∈ s.candidates ↔ ∃ q e, s.entries.get q = some e ∧ (p = q ∨
      (e ≠ .dir false ∧ q <+: p ∧ q ≠ p ∧ fileEntry (s.base.lookup p) ≠ none)) := by
  have hfiles : ∀ q, (isDirEntry (s.base.lookup q) = true ∧ p ∈ (s.base.filesUnder q).map Prod.fst) ↔
      q <+: p ∧ q ≠ p ∧ fileEntry (s.base.lookup p) ≠ none := by
    intro q
    have hentry : fileEntry (s.base.lookup p) ≠ none ↔
        ∃ e, s.base.lookup p = some e ∧ e.kind ≠ .dir := by
      simp [fileEntry]
    rw [hentry]
    constructor
    · rintro ⟨-, hmem⟩
      obtain ⟨⟨r, e⟩, hx, rfl⟩ := mem_map.mp hmem
      obtain ⟨hlookup, hkind, hle, hne⟩ := Manifest.mem_filesUnder.mp hx
      exact ⟨hle, hne, e, hlookup, hkind⟩
    · rintro ⟨hle, hne, e, hlookup, hkind⟩
      obtain ⟨b, hb, hbkind⟩ := Manifest.lookup_above (by rw [hlookup]; simp) hle hne
      refine ⟨by simp [isDirEntry, hb, hbkind], mem_map.mpr ⟨(p, e), ?_, rfl⟩⟩
      exact Manifest.mem_filesUnder.mpr ⟨hlookup, hkind, hle, hne⟩
  rw [candidates, mem_insertionSort, mem_dedup, mem_flatMap]
  constructor
  · rintro ⟨⟨q, e⟩, hmem, hp⟩
    refine ⟨q, e, (s.entries.mem_rows_iff q e).mp hmem, ?_⟩
    rw [candidatesOf, mem_cons] at hp
    refine hp.imp_right fun hp => ?_
    split_ifs at hp with hplain hdir
    · cases hp
    · exact ⟨hplain, (hfiles q).mp ⟨hdir, hp⟩⟩
    · cases hp
  · rintro ⟨q, e, hget, hp⟩
    refine ⟨(q, e), (s.entries.mem_rows_iff q e).mpr hget, ?_⟩
    rw [candidatesOf, mem_cons]
    refine hp.imp_right ?_
    rintro ⟨hplain, hunder⟩
    obtain ⟨hdir, hmem⟩ := (hfiles q).mpr hunder
    rw [if_neg hplain, if_pos hdir]
    exact hmem

theorem Sound.mem_candidates_of_difference (hs : s.Sound) (hd : difference c s p ≠ none) :
    p ∈ s.candidates := by
  by_contra hnot
  refine hd ?_
  rw [mem_candidates] at hnot
  have hnone : s.entries.get p = none := by
    by_contra hget
    obtain ⟨e, he⟩ := ne_none_iff_exists'.mp hget
    exact hnot ⟨p, e, he, .inl rfl⟩
  rw [difference, hs.shownFile_eq]
  by_cases hp : p = []
  · subst hp
    obtain ⟨e, he, hkind⟩ := s.base.root
    have hlookup : s.base.lookup [] = some e := he
    simp [lookup, fileEntry, hlookup, hkind, Option.filter]
  rw [lookup, if_neg hp, hnone]
  by_cases hvisible : s.baseVisible p = true
  · -- the base shows
    rw [if_pos hvisible]
    cases hb : s.base.lookup p with
    | none => rfl
    | some b => by_cases hk : b.kind = .dir <;> simp [hk, fileEntry, Option.filter, baseNode, shownHash]
  · -- the base is hidden by an entry above: it has no file here
    rw [if_neg hvisible]
    have hfile : fileEntry (s.base.lookup p) = none := by
      by_contra hfile
      refine hvisible (baseVisible_iff.mpr fun d hd hne _ => ?_)
      by_contra hclear
      cases he : s.entries.get d with
      | none => exact hclear (.inl he)
      | some e =>
        refine hnot ⟨d, e, he, .inr ⟨fun heq => hclear (.inr (heq ▸ he)), hd, hne, hfile⟩⟩
    rw [hfile]
    rfl

/-- **`Edits`** returns the difference, sorted by path and without duplicates. -/
theorem Sound.edits_eq (hs : s.Sound) (c : Content) :
    ∃ l, s.edits c = .ok l ∧ (l.map Edit.path).Nodup ∧
    l.Pairwise (fun e e' => renderPath e.path ≤ renderPath e'.path) ∧
    ∀ e, e ∈ l ↔ difference c s e.path = some e.change := by
  let g : Path → Option Edit := fun p => (difference c s p).map fun change => ⟨p, change⟩
  have hg : ∀ {p : Path} {e : Edit}, g p = some e → e.path = p := by
    intro p e he
    obtain ⟨change, -, rfl⟩ := map_eq_some_iff.mp he
    rfl
  have hedits : s.edits c = .ok (s.candidates.filterMap g) := by
    rw [edits, Except.mapM_eq_map fun p _ => hs.editAt_eq c p]
    simp only [bind, Except.bind, List.reduceOption, filterMap_map]
    rfl
  have hnodup : s.candidates.Nodup :=
    (perm_insertionSort _ _).nodup_iff.mpr (nodup_dedup _)
  have hsorted : s.candidates.Pairwise fun p q => renderPath p ≤ renderPath q :=
    pairwise_insertionSort _ _
  refine ⟨_, hedits, ?_, ?_, fun e => ?_⟩
  · rw [nodup_iff_pairwise_ne, pairwise_map]
    refine List.Pairwise.filterMap g ?_ (nodup_iff_pairwise_ne.mp hnodup)
    intro p q hne e he e' he'
    rw [hg he, hg he']
    exact hne
  · refine List.Pairwise.filterMap g ?_ hsorted
    intro p q hle e he e' he'
    rw [hg he, hg he']
    exact hle
  · rw [mem_filterMap]
    constructor
    · rintro ⟨p, -, he⟩
      obtain ⟨change, hchange, rfl⟩ := map_eq_some_iff.mp he
      exact hchange
    · intro hd
      refine ⟨e.path, hs.mem_candidates_of_difference (by rw [hd]; simp), ?_⟩
      simp only [g, hd, map_some]

end GitSlice.LazyFS.FS
