import GitSlice.GitCompat.History
import GitSlice.GitCompat.NameStatus
import GitSlice.TreeStore.FileSets

/-! # Pushes
`git push` to a slice turns the difference between a projected commit and the pushed one into edits
of the native tree (`pushedCommitFileEdits`), which are refused when they leave the slice
(`ensurePushEditsContained`) and applied otherwise.

`push_lossless` says that an accepted push loses nothing exactly when no changed path has a
backslash in it or ends in white space. `push_renames_backslash` shows what becomes of such a name:
`FromWorkspacePath` reads the backslash as a slash, so the push writes another file. Names are texts
here, so those that are not valid UTF-8 are left out. -/

namespace GitSlice

open List GitSlice.Except

namespace GitPush

variable (blob : String → String × Nat)

/-- A record of `gitSnapshotFromTreeRecords`: a push refuses what is not a blob. -/
def pushedFile (record : TreeRecord) : Except String GitFile :=
  if record.kind ≠ "blob" then
    .error ("unsupported Git object type " ++ record.kind ++ " at " ++ record.path)
  else gitFile "/" record

/-- The delete of a Git path. -/
def deleteEdit (gitPath : String) : Except String TreeEdit := do
  let p ← fromWorkspacePath "/" gitPath
  return .delete p

/-- The edit of a path with a new file: a file that is not found is taken for deleted. -/
def upsertEdit (snapshot : Table String GitFile) (gitPath : String) : Except String TreeEdit :=
  match snapshot.get gitPath with
  | some file => .ok (.upsert file.path (file.entry blob))
  | none => deleteEdit gitPath

/-- `pushedCommitFileEdits`, from the output of `diff-tree` and the answers of `ls-tree`. -/
def pushedCommitFileEdits (diff : List String) (ls : List String → List TreeRecord) :
    Except String (List TreeEdit) := do
  let (deleted, upserts) ← parseGitDiffNameStatus diff
  let snapshot ← gitFilesAtPaths GitFile.gitPath pushedFile ls upserts
  let deletes ← deleted.mapM deleteEdit
  let writes ← upserts.mapM (upsertEdit blob snapshot)
  return sortEdits (deletes ++ writes)

/-- No edit is outside the slice. -/
def ensurePushEditsContained (prefixes : List Path) (slice : String) (edits : List TreeEdit) :
    Except String Unit :=
  edits.forM fun e => e.writes.forM fun p =>
    if inAnyPrefix prefixes p then .ok ()
    else .error ("path " ++ renderPath p ++ " is outside slice " ++ slice)

/-- Why a push is refused. -/
inductive PushError where
  /-- The handler rejects it, with a message. -/
  | rejected (message : String)
  /-- The tree store fails. -/
  | tree (error : TreeError)

/-- A push onto a native tree: the edits and the tree they give. -/
def push (prefixes : List Path) (slice : String) (diff : List String)
    (ls : List String → List TreeRecord) (tree : Node) : Except PushError (List TreeEdit × Node) :=
  match pushedCommitFileEdits blob diff ls with
  | .error message => .error (.rejected message)
  | .ok edits =>
    if edits = [] then
      .error (.rejected "push does not change any files relative to the projected commit it is based on")
    else
      match ensurePushEditsContained prefixes slice edits with
      | .error message => .error (.rejected message)
      | .ok () =>
        match applyEdits tree edits with
        | .error e => .error (.tree e)
        | .ok root => .ok (edits, root)

/-- A path that comes out of `FromWorkspacePath` and of the tree store as it went in: it has no
backslash and does not end in white space. -/
def Carried (p : Path) : Prop := Slashed p ∧ ∀ a ∈ p.getLast?, trimSpaceRight a = a

instance (p : Path) : Decidable (Carried p) :=
  inferInstanceAs (Decidable (Slashed p ∧ ∀ a ∈ p.getLast?, trimSpaceRight a = a))

variable {p : Path}

theorem Carried.plain (h : Carried p) (hp : ∀ a ∈ p, validSegment a = true) : Plain p :=
  splitPath_eq_self fun a ha => ⟨h.2 a ha, hp a (mem_of_getLast? ha)⟩

theorem fromWorkspacePath_root (hp : ∀ a ∈ p, validSegment a = true) (hs : Slashed p)
    (hne : p ≠ []) : fromWorkspacePath "/" (joinParts p) = if p.length < 2 then
      .error ("path must include account and slice segments: " ++ quote (renderPath p)) else .ok p := by
  have hroot := fromWorkspacePath_joinParts (m := []) (fun _ h => nomatch h) (fun _ h => nomatch h)
    hp hs hne
  rw [if_neg fun h => hne (List.head?_eq_none_iff.mp h.2)] at hroot
  exact hroot

/-! ## The edits of a push -/

/-- A push that Git answers for: `base` is the projection of the tree, `pushed` a tree of blobs, and
the entries are the difference. -/
structure Pushed (prefixes : List Path) (tree : Node) (base pushed : FileMap) (entries : List DiffEntry) :
    Prop where
  proper : tree.Proper
  projects : ∀ p, base.get p = projectedAt prefixes tree p
  blobs : BlobTree pushed
  answers : Answers base pushed entries

variable {prefixes : List Path} {tree : Node} {base pushed : FileMap} {entries : List DiffEntry}

theorem fileAt_of_projected (hprojects : ∀ p, base.get p = projectedAt prefixes tree p)
    (hp : base.get p ≠ none) : projectablePath p = true ∧ inAnyPrefix prefixes p = true ∧
      ∃ f, tree.fileAt p = some f ∧ base.get p = some f.projected := by
  rw [hprojects, projectedAt] at hp ⊢
  split_ifs at hp with hin
  · obtain ⟨f, hf⟩ : ∃ f, tree.fileAt p = some f := by
      cases hf : tree.fileAt p with
      | none => rw [hf] at hp; exact absurd rfl hp
      | some f => exact ⟨f, rfl⟩
    exact ⟨hin.1, hin.2, f, hf, by rw [if_pos hin, hf]; rfl⟩
  · exact absurd rfl hp

theorem eq_of_fileAt {q : Path} {f g : FileEntry} (hp : tree.fileAt p = some f)
    (hq : tree.fileAt q = some g) (hle : p <+: q) : p = q := by
  by_contra hne
  rw [Node.fileAt_eq_some] at hp hq
  obtain ⟨c, hc⟩ := Node.exists_directory_of_above hle hne hq
  rw [hp] at hc
  cases hc

theorem treeLike_of_projected (hproper : tree.Proper)
    (hprojects : ∀ p, base.get p = projectedAt prefixes tree p) : base.TreeLike where
  proper p hp := by
    obtain ⟨-, -, f, hf, -⟩ := fileAt_of_projected hprojects hp
    refine ⟨?_, (hproper.getEntry (Node.fileAt_eq_some.mp hf)).1⟩
    rintro rfl
    cases hf
  apart p q hp hq hle := by
    obtain ⟨-, -, f, hf, -⟩ := fileAt_of_projected hprojects hp
    obtain ⟨-, -, g, hg, -⟩ := fileAt_of_projected hprojects hq
    exact eq_of_fileAt hf hg hle

/-- The native entry of a pushed file. -/
def pushedEntry (f : ProjectedFile) : FileEntry :=
  ⟨(parseOctal f.mode).getD 0, (blob f.contentHash).1, f.contentHash, (blob f.contentHash).2⟩

variable {f : ProjectedFile}

theorem projected_pushedEntry (h : f.mode ∈ blobModes) : (pushedEntry blob f).projected = f := by
  obtain ⟨m, hm, hmode⟩ := gitFileMode_parseOctal h
  rw [pushedEntry, FileEntry.projected, hm]
  dsimp only [Option.getD_some]
  rw [hmode]

theorem Pushed.valid (h : Pushed prefixes tree base pushed entries)
    (hp : base.get p ≠ pushed.get p) : p ≠ [] ∧ ∀ a ∈ p, validSegment a = true := by
  cases hbase : base.get p with
  | some f => exact (treeLike_of_projected h.proper h.projects).proper p (by rw [hbase]; simp)
  | none =>
    refine h.blobs.treeLike.proper p fun hnone => hp ?_
    rw [hbase, hnone]

theorem pushedFile_ok {r : TreeRecord} {file : GitFile} (h : pushedFile r = .ok file) :
    file.gitPath = r.path ∧ fromWorkspacePath "/" r.path = .ok file.path := by
  rw [pushedFile] at h
  split_ifs at h
  rw [gitFile] at h
  split at h
  · cases h
  · obtain ⟨q, hq, hret⟩ := bind_eq_ok.mp h
    cases hret
    exact ⟨rfl, hq⟩

theorem get_snapshot (h : BlobTree pushed) {upserts : List String} {snapshot : Table String GitFile}
    (hsnap : gitFilesAtPaths GitFile.gitPath pushedFile (lsTree pushed) upserts = .ok snapshot)
    (hp : pushed.get p = some f) (hmem : joinParts p ∈ upserts) :
    ∃ file, snapshot.get (joinParts p) = some file ∧
      gitFile "/" ⟨f.mode, "blob", joinParts p, f.contentHash⟩ = .ok file := by
  obtain ⟨chunk, hchunk, hin⟩ := mem_pathChunks.mpr hmem
  have hrecord : (⟨f.mode, "blob", joinParts p, f.contentHash⟩ : TreeRecord) ∈ lsTree pushed chunk :=
    mem_lsTree.mpr ⟨p, f, hp, rfl, joinParts p, hin, .inl rfl⟩
  obtain ⟨file, hread, file', hget⟩ := exists_get_gitFilesAtPaths hsnap hchunk hrecord
  have hread' : gitFile "/" ⟨f.mode, "blob", joinParts p, f.contentHash⟩ = .ok file := hread
  rw [(pushedFile_ok hread).1] at hget
  -- the file found under the path is that of a record with this path, and there is one
  obtain ⟨hkey, chunk', -, r, hr, hfile'⟩ := mem_of_get_gitFilesAtPaths hsnap hget
  obtain ⟨q, g, hq, rfl, -⟩ := mem_lsTree.mp hr
  have hqp : q = p := joinParts_injective (h.treeLike.proper q (by rw [hq]; simp)).2
    (h.treeLike.proper p (by rw [hp]; simp)).2 ((pushedFile_ok hfile').1.symm.trans hkey)
  subst hqp
  rw [hp] at hq
  cases hq
  rw [hread] at hfile'
  cases hfile'
  exact ⟨file, hget, hread'⟩

theorem gitFile_root {file : GitFile} (hp : ∀ a ∈ p, validSegment a = true) (hs : Slashed p)
    (hne : p ≠ []) (h : gitFile "/" ⟨f.mode, "blob", joinParts p, f.contentHash⟩ = .ok file) :
    2 ≤ p.length ∧ file.path = p ∧ file.entry blob = pushedEntry blob f := by
  rw [gitFile] at h
  split at h
  · cases h
  · rename_i m hm
    obtain ⟨q, hq, hret⟩ := bind_eq_ok.mp h
    cases hret
    rw [fromWorkspacePath_root hp hs hne] at hq
    split_ifs at hq with hlen
    cases hq
    refine ⟨by omega, rfl, ?_⟩
    rw [pushedEntry, hm]
    rfl

variable {e : TreeEdit}

theorem deleteEdit_ok (hp : ∀ a ∈ p, validSegment a = true) (hs : Slashed p) (hne : p ≠ [])
    (h : deleteEdit (joinParts p) = .ok e) : e = .delete p := by
  obtain ⟨q, hq, hret⟩ := bind_eq_ok.mp h
  cases hret
  rw [fromWorkspacePath_root hp hs hne] at hq
  split_ifs at hq
  cases hq
  rfl

/-- The edit is one of the difference: a delete of a path that is gone, or a write of a new file. -/
def Differs (base pushed : FileMap) (e : TreeEdit) : Prop :=
  (∃ p, base.get p ≠ none ∧ pushed.get p = none ∧ e = .delete p) ∨
    ∃ p f, pushed.get p = some f ∧ pushed.get p ≠ base.get p ∧ e = .upsert p (pushedEntry blob f)

variable {blob} in
theorem Differs.changed (h : Differs blob base pushed e) : base.get e.path ≠ pushed.get e.path := by
  rcases h with ⟨p, hp, hgone, rfl⟩ | ⟨p, f, -, hne, rfl⟩
  · exact fun heq => hp (heq.trans hgone)
  · exact hne.symm

/-- **The edits of a push**: a delete of every path that is gone and a write of every new file, each
once and at its own path. -/
theorem Pushed.edits (h : Pushed prefixes tree base pushed entries)
    (hcarried : ∀ p, base.get p ≠ pushed.get p → Carried p) {edits : List TreeEdit}
    (hok : pushedCommitFileEdits blob (diffTokens entries) (lsTree pushed) = .ok edits) :
    ∃ raw, edits = sortEdits raw ∧ FileEdits raw ∧ ∀ e, e ∈ raw ↔ Differs blob base pushed e := by
  have hbase := treeLike_of_projected h.proper h.projects
  obtain ⟨deleted, upserts, hparse, hnodup, hnodup', hdeleted, hupserts⟩ :=
    parseGitDiffNameStatus_answers h.answers hbase h.blobs.treeLike
  obtain ⟨parsed, hparsed, hok⟩ := bind_eq_ok.mp hok
  rw [hparse] at hparsed
  cases hparsed
  obtain ⟨snapshot, hsnap, hok⟩ := bind_eq_ok.mp hok
  obtain ⟨deletes, hdeletes, hok⟩ := bind_eq_ok.mp hok
  obtain ⟨writes, hwrites, hok⟩ := bind_eq_ok.mp hok
  cases hok
  -- what each of the two loops makes of a path
  have hdelete : ∀ {p e}, base.get p ≠ none → pushed.get p = none →
      deleteEdit (joinParts p) = .ok e →
      e = .delete p := by
    intro p e hp hgone he
    have hchanged : base.get p ≠ pushed.get p := fun heq => hp (heq.trans hgone)
    obtain ⟨hne, hvalid⟩ := h.valid hchanged
    exact deleteEdit_ok hvalid (hcarried p hchanged).1 hne he
  have hwrite : ∀ {p f e}, pushed.get p = some f → pushed.get p ≠ base.get p →
      joinParts p ∈ upserts → upsertEdit blob snapshot (joinParts p) = .ok e →
      e = .upsert p (pushedEntry blob f) := by
    intro p f e hp hchanged hmem he
    obtain ⟨hne, hvalid⟩ := h.valid hchanged.symm
    obtain ⟨file, hget, hread⟩ := get_snapshot h.blobs hsnap hp hmem
    obtain ⟨-, hpath, hentry⟩ := gitFile_root blob hvalid (hcarried p hchanged.symm).1 hne hread
    rw [upsertEdit, hget] at he
    cases he
    rw [hpath, hentry]
  have hmem : ∀ e, e ∈ deletes ++ writes ↔ Differs blob base pushed e := by
    intro e
    rw [mem_append]
    refine or_congr ⟨fun he => ?_, ?_⟩ ⟨fun he => ?_, ?_⟩
    · obtain ⟨t, ht, hte⟩ := exists_of_mapM hdeletes he
      obtain ⟨p, rfl, hp, hgone⟩ := (hdeleted t).mp ht
      exact ⟨p, hp, hgone, hdelete hp hgone hte⟩
    · rintro ⟨p, hp, hgone, rfl⟩
      obtain ⟨e, he, hte⟩ := exists_mapM_of_mem hdeletes ((hdeleted _).mpr ⟨p, rfl, hp, hgone⟩)
      rwa [hdelete hp hgone hte] at he
    · obtain ⟨t, ht, hte⟩ := exists_of_mapM hwrites he
      obtain ⟨p, rfl, hp, hchanged⟩ := (hupserts t).mp ht
      obtain ⟨f, hf⟩ := Option.ne_none_iff_exists'.mp hp
      exact ⟨p, f, hf, hchanged, hwrite hf hchanged ht hte⟩
    · rintro ⟨p, f, hf, hchanged, rfl⟩
      have ht : joinParts p ∈ upserts := (hupserts _).mpr ⟨p, rfl, by rw [hf]; simp, hchanged⟩
      obtain ⟨e, he, hte⟩ := exists_mapM_of_mem hwrites ht
      rwa [hwrite hf hchanged ht hte] at he
  refine ⟨deletes ++ writes, rfl, ⟨fun e he => ?_, ?_, fun e he => ?_⟩, hmem⟩
  · rcases (hmem e).mp he with ⟨p, -, -, rfl⟩ | ⟨p, f, -, -, rfl⟩
    · exact .inr ⟨p, rfl⟩
    · exact .inl ⟨p, _, rfl⟩
  · -- the texts of the paths are those of the two lists, which share none
    have htexts : ((deletes ++ writes).map fun e => joinParts e.path) = deleted ++ upserts := by
      rw [map_append]
      congr 1
      · rw [← map_id deleted]
        refine map_of_mapM hdeletes fun t ht e hte => ?_
        obtain ⟨p, rfl, hp, hgone⟩ := (hdeleted t).mp ht
        rw [hdelete hp hgone hte]
        rfl
      · rw [← map_id upserts]
        refine map_of_mapM hwrites fun t ht e hte => ?_
        obtain ⟨p, rfl, hp, hchanged⟩ := (hupserts t).mp ht
        obtain ⟨f, hf⟩ := Option.ne_none_iff_exists'.mp hp
        rw [hwrite hf hchanged ht hte]
        rfl
    have hdisjoint : ∀ t ∈ deleted, t ∉ upserts := by
      intro t ht ht'
      obtain ⟨p, rfl, hp, hgone⟩ := (hdeleted t).mp ht
      obtain ⟨q, heq, hq, -⟩ := (hupserts _).mp ht'
      have hqp := joinParts_injective (hbase.proper p hp).2 (h.blobs.treeLike.proper q hq).2 heq
      rw [← hqp] at hq
      exact hq hgone
    have hall : (deleted ++ upserts).Nodup :=
      nodup_append.mpr ⟨hnodup, hnodup', fun t ht t' ht' heq => hdisjoint t ht (heq ▸ ht')⟩
    rw [← htexts, show (fun e : TreeEdit => joinParts e.path) = joinParts ∘ Edit.path from rfl,
      ← map_map] at hall
    exact List.Nodup.of_map _ hall
  · have hchanged := ((hmem e).mp he).changed
    obtain ⟨hne, hvalid⟩ := h.valid hchanged
    exact ⟨hne, (hcarried _ hchanged).plain hvalid, hvalid⟩

/-! ## The tree of a push -/

theorem push_ok {blob : String → String × Nat} {slice : String} {diff : List String}
    {ls : List String → List TreeRecord} {edits : List TreeEdit} {root : Node}
    (h : push blob prefixes slice diff ls tree = .ok (edits, root)) :
    pushedCommitFileEdits blob diff ls = .ok edits ∧
      ensurePushEditsContained prefixes slice edits = .ok () ∧
      applyEdits tree edits = .ok root := by
  rw [push] at h
  split at h
  · cases h
  · rename_i hedits
    split_ifs at h
    split at h
    · cases h
    · rename_i hcontained
      split at h
      · cases h
      · rename_i hroot
        cases h
        exact ⟨hedits, hcontained, hroot⟩

theorem contained_of_ok {slice : String} {edits : List TreeEdit}
    (h : ensurePushEditsContained prefixes slice edits = .ok ()) (he : e ∈ edits) :
    inAnyPrefix prefixes e.path = true := by
  have hpath : e.path ∈ e.writes := by cases e <;> simp [Edit.writes, Edit.path]
  have hin := of_mem_forM (of_mem_forM h he) hpath
  split_ifs at hin with hcontained
  exact hcontained

theorem Pushed.projectedAt_root (h : Pushed prefixes tree base pushed entries) {raw : List TreeEdit}
    {root : Node} (hraw : FileEdits raw)
    (hmem : ∀ e, e ∈ raw ↔ Differs blob base pushed e)
    (hin : ∀ e ∈ raw, inAnyPrefix prefixes e.path = true)
    (hroot : applyEdits tree (sortEdits raw) = .ok root) (p : Path) :
    projectedAt prefixes root p = pushed.get p := by
  obtain ⟨hwritten, hdropped, hkept⟩ := fileAt_applyEdits hraw hroot
  have hbase := treeLike_of_projected h.proper h.projects
  by_cases hnew : pushed.get p ≠ none ∧ pushed.get p ≠ base.get p
  · obtain ⟨f, hf⟩ := Option.ne_none_iff_exists'.mp hnew.1
    have he : .upsert p (pushedEntry blob f) ∈ raw := (hmem _).mpr (.inr ⟨p, f, hf, hnew.2, rfl⟩)
    rw [projectedAt, if_pos ⟨h.blobs.names p hnew.1, hin _ he⟩, hwritten p _ he, hf,
      Option.map_some, projected_pushedEntry blob (h.blobs.modes p f hf)]
  · have hno : ∀ f, .upsert p f ∉ raw := by
      intro f hf
      rcases (hmem _).mp hf with ⟨q, -, -, heq⟩ | ⟨q, g, hq, hne, heq⟩
      · cases heq
      · cases heq
        exact hnew ⟨by rw [hq]; simp, hne⟩
    cases hp : pushed.get p with
    | none =>
      rw [projectedAt]
      split_ifs with hshown
      · -- a file there would be one of the base, and deleted
        have hnone : root.fileAt p = none := by
          by_cases habove : ∃ e ∈ raw, e.path <+: p
          · exact hdropped p hno habove
          · rw [hkept p fun e he hle => habove ⟨e, he, hle⟩]
            by_contra hsome
            have hgone : base.get p ≠ none := by
              rw [h.projects, projectedAt, if_pos hshown]
              simpa using hsome
            exact habove ⟨.delete p, (hmem _).mpr (.inl ⟨p, hgone, hp, rfl⟩), prefix_refl p⟩
        rw [hnone]
        rfl
      · rfl
    | some f =>
      have hsame : base.get p = some f := by
        by_contra hne
        exact hnew ⟨by rw [hp]; simp, by rw [hp]; exact fun heq => hne heq.symm⟩
      -- no edit is at a file that both trees have, or above it
      have hfree : ∀ e ∈ raw, ¬ e.path <+: p := by
        intro e he hle
        rcases (hmem e).mp he with ⟨q, hq, hgone, rfl⟩ | ⟨q, g, hq, hne, rfl⟩
        · have hqp := hbase.apart q p hq (by rw [hsame]; simp) hle
          rw [hqp, hp] at hgone
          cases hgone
        · have hqp := h.blobs.treeLike.apart q p (by rw [hq]; simp) (by rw [hp]; simp) hle
          rw [hqp, hp, hsame] at hne
          exact hne rfl
      rw [projectedAt, hkept p hfree, ← hsame, h.projects, projectedAt]

/-- **An edit of a push**, whatever the names: it is at the native path of a changed path. -/
theorem Pushed.edit_cases (h : Pushed prefixes tree base pushed entries) {edits : List TreeEdit}
    (hok : pushedCommitFileEdits blob (diffTokens entries) (lsTree pushed) = .ok edits)
    (he : e ∈ edits) :
    ∃ q x, base.get q ≠ pushed.get q ∧ fromWorkspacePath "/" (joinParts q) = .ok x ∧
      (e = .delete x ∨ (pushed.get q ≠ none ∧ ∃ f, e = .upsert x f)) := by
  obtain ⟨deleted, upserts, hparse, -, -, hdeleted, hupserts⟩ :=
    parseGitDiffNameStatus_answers h.answers (treeLike_of_projected h.proper h.projects) h.blobs.treeLike
  obtain ⟨parsed, hparsed, hok⟩ := bind_eq_ok.mp hok
  rw [hparse] at hparsed
  cases hparsed
  obtain ⟨snapshot, hsnap, hok⟩ := bind_eq_ok.mp hok
  obtain ⟨deletes, hdeletes, hok⟩ := bind_eq_ok.mp hok
  obtain ⟨writes, hwrites, hok⟩ := bind_eq_ok.mp hok
  cases hok
  have hdelete : ∀ {t}, deleteEdit t = .ok e →
      ∃ x, fromWorkspacePath "/" t = .ok x ∧ e = .delete x := by
    intro t ht
    obtain ⟨x, hx, hret⟩ := bind_eq_ok.mp ht
    cases hret
    exact ⟨x, hx, rfl⟩
  rcases mem_append.mp ((perm_sortEdits _).mem_iff.mp he) with he | he
  · obtain ⟨t, ht, hte⟩ := exists_of_mapM hdeletes he
    obtain ⟨q, rfl, hq, hgone⟩ := (hdeleted t).mp ht
    obtain ⟨x, hx, rfl⟩ := hdelete hte
    exact ⟨q, x, fun heq => hq (heq.trans hgone), hx, .inl rfl⟩
  · obtain ⟨t, ht, hte⟩ := exists_of_mapM hwrites he
    obtain ⟨q, rfl, hq, hchanged⟩ := (hupserts t).mp ht
    rw [upsertEdit] at hte
    split at hte
    · rename_i file hfile
      cases hte
      obtain ⟨hkey, chunk, -, r, -, hr⟩ := mem_of_get_gitFilesAtPaths hsnap hfile
      obtain ⟨hpath, hx⟩ := pushedFile_ok hr
      rw [← hpath, hkey] at hx
      exact ⟨q, file.path, hchanged.symm, hx, .inr ⟨hq, _, rfl⟩⟩
    · obtain ⟨x, hx, rfl⟩ := hdelete hte
      exact ⟨q, x, hchanged.symm, hx, .inl rfl⟩

theorem Pushed.proper_root (h : Pushed prefixes tree base pushed entries) {edits : List TreeEdit}
    {root : Node}
    (hok : pushedCommitFileEdits blob (diffTokens entries) (lsTree pushed) = .ok edits)
    (hroot : applyEdits tree edits = .ok root) : root.Proper := by
  refine wellFormed_applyEditSet (fun e he => ⟨fun q hq => ?_, fun _ _ _ => trivial⟩) hroot h.proper
  obtain ⟨p, x, -, hx, rfl | ⟨-, f, rfl⟩⟩ := h.edit_cases blob hok he <;>
  · rw [mem_singleton.mp hq]
    exact validSegment_splitPath (fromWorkspacePath_ok hx).valid

/-- The push **loses nothing**: projecting the edited tree gives the pushed tree, and no two changed
paths become one native path. -/
def Lossless (prefixes : List Path) (base pushed : FileMap) (edits : List TreeEdit) (root : Node) :
    Prop :=
  (∀ p, (applyListing base (projectionTargets (edits.map Edit.path) prefixes)
    (treeListing root)).1.get p = pushed.get p) ∧
  ∀ p q x y, base.get p ≠ pushed.get p → base.get q ≠ pushed.get q →
    fromWorkspacePath "/" (joinParts p) = .ok x → fromWorkspacePath "/" (joinParts q) = .ok y →
    splitPath x = splitPath y → p = q

variable {slice : String} {edits : List TreeEdit} {root : Node}

theorem Pushed.lossless (h : Pushed prefixes tree base pushed entries)
    (hpush : push blob prefixes slice (diffTokens entries) (lsTree pushed) tree = .ok (edits, root))
    (hcarried : ∀ p, base.get p ≠ pushed.get p → Carried p) :
    Lossless prefixes base pushed edits root := by
  obtain ⟨hedits, hcontained, hroot⟩ := push_ok hpush
  have hproper := h.proper_root blob hedits hroot
  constructor
  · intro p
    obtain ⟨raw, rfl, hraw, hmem⟩ := h.edits blob hcarried hedits
    have hperm := perm_sortEdits raw
    have hin : ∀ e ∈ raw, inAnyPrefix prefixes e.path = true := fun e he =>
      contained_of_ok hcontained (hperm.mem_iff.mpr he)
    have hplain : ∀ t ∈ projectionTargets ((sortEdits raw).map Edit.path) prefixes, Plain t := by
      intro t ht
      have hchanged := mem_changed_of_mem_projectionTargets (fun q hq => ?_) ht
      · obtain ⟨e, he, rfl⟩ := mem_map.mp hchanged
        exact (hraw.proper e (hperm.mem_iff.mp he)).2.1
      · obtain ⟨e, he, rfl⟩ := mem_map.mp hq
        exact hin e (hperm.mem_iff.mp he)
    have hcovered : ChangesCovered tree root ((sortEdits raw).map Edit.path) := by
      intro q hne
      by_contra hnone
      refine hne ((fileAt_applyEdits hraw hroot).2.2 q fun e he hle => hnone ?_).symm
      exact ⟨e.path, mem_map_of_mem (hperm.mem_iff.mpr he), hle⟩
    rw [← h.projectedAt_root blob hraw hmem hin hroot p]
    exact @applyListing_projected prefixes tree ⟨"", root, (sortEdits raw).map Edit.path⟩
      hcovered hproper hplain _ h.projects p
  · intro p q x y hp hq hx hy hxy
    obtain ⟨hpne, hpv⟩ := h.valid hp
    obtain ⟨hqne, hqv⟩ := h.valid hq
    rw [fromWorkspacePath_root hpv (hcarried p hp).1 hpne] at hx
    rw [fromWorkspacePath_root hqv (hcarried q hq).1 hqne] at hy
    split_ifs at hx hy
    cases hx
    cases hy
    have hplain : splitPath p = p := (hcarried p hp).plain hpv
    have hplain' : splitPath q = q := (hcarried q hq).plain hqv
    rwa [hplain, hplain'] at hxy

/-- A new file that the projection shows was written at its path, as the tree store reads it. -/
theorem Pushed.written (h : Pushed prefixes tree base pushed entries)
    (hpush : push blob prefixes slice (diffTokens entries) (lsTree pushed) tree = .ok (edits, root))
    (hlossless : Lossless prefixes base pushed edits root) (hp : base.get p ≠ pushed.get p)
    (hnew : tree.fileAt p = none) : pushed.get p ≠ none ∧ ∃ q x, base.get q ≠ pushed.get q ∧
      pushed.get q ≠ none ∧ fromWorkspacePath "/" (joinParts q) = .ok x ∧ splitPath x = p := by
  obtain ⟨hedits, -, hroot⟩ := push_ok hpush
  have hbase : base.get p = none := by
    rw [h.projects, projectedAt, hnew]
    split_ifs <;> rfl
  have hpushed : pushed.get p ≠ none := fun hnone => hp (hbase.trans hnone.symm)
  obtain ⟨f, hf⟩ := Option.ne_none_iff_exists'.mp hpushed
  have hshown := hlossless.1 p
  rw [hf] at hshown
  refine ⟨hpushed, ?_⟩
  have hlisted : ∀ t q g, (q, g) ∈ treeListing root t → root.fileAt q = some g := fun t q g hg =>
    Node.fileAt_eq_some.mpr
      ((Node.lists_listFiles (h.proper_root blob hedits hroot) (splitPath t)).mem q g |>.mp hg).1
  rcases of_get_applyListing (fun t _ => hlisted t) hshown with hold | hfile
  · rw [hbase] at hold
    cases hold
  · obtain ⟨g, hg, -⟩ := Option.map_eq_some_iff.mp hfile
    have hkinds : ∀ e ∈ edits, (∃ p f, e = .upsert p f) ∨ ∃ p, e = .delete p := by
      intro e he
      obtain ⟨-, x, -, -, rfl | ⟨-, f, rfl⟩⟩ := h.edit_cases blob hedits he
      · exact .inr ⟨x, rfl⟩
      · exact .inl ⟨x, f, rfl⟩
    rcases filesFrom_applyEdits hkinds hroot p g hg with hold | ⟨x, hmem, hx⟩
    · rw [hnew] at hold
      cases hold
    · obtain ⟨q, y, hq, hy, heq | ⟨hqq, g', heq⟩⟩ := h.edit_cases blob hedits hmem
      · cases heq
      · cases heq
        exact ⟨q, x, hq, hqq, hy, hx⟩

/-- **When a push loses nothing.** An accepted push onto a tree whose files have names that are
carried loses nothing exactly when no changed path has a backslash in it or ends in white space. -/
theorem push_lossless (h : Pushed prefixes tree base pushed entries)
    (hpush : push blob prefixes slice (diffTokens entries) (lsTree pushed) tree = .ok (edits, root))
    (hnative : ∀ p, base.get p ≠ pushed.get p → tree.fileAt p ≠ none → Carried p) :
    Lossless prefixes base pushed edits root ↔ ∀ p, base.get p ≠ pushed.get p → Carried p := by
  refine ⟨fun hlossless => ?_, h.lossless blob hpush⟩
  have hwritten : ∀ p, base.get p ≠ pushed.get p → ¬ Carried p → pushed.get p ≠ none ∧ ∃ q x,
      base.get q ≠ pushed.get q ∧ pushed.get q ≠ none ∧
        fromWorkspacePath "/" (joinParts q) = .ok x ∧
        splitPath x = p := fun p hp hc =>
    h.written blob hpush hlossless hp (of_not_not fun hfile => hc (hnative p hp hfile))
  -- a native path has no backslash, so nothing is written at a path with one
  have hslashed : ∀ p, base.get p ≠ pushed.get p → Slashed p := by
    intro p hp
    by_contra hs
    obtain ⟨-, q, x, -, -, hx, rfl⟩ := hwritten p hp fun hc => hs hc.1
    exact hs (fromWorkspacePath_ok hx).slashed.splitPath
  intro p hp
  by_contra hc
  obtain ⟨hpushed, q, x, hq, hpushed', hx, hxp⟩ := hwritten p hp hc
  obtain ⟨hne, hvalid⟩ := h.valid hq
  rw [fromWorkspacePath_root hvalid (hslashed q hq) hne] at hx
  split_ifs at hx
  cases hx
  -- the file written there is one with a trimmed name, or one below, which the pushed tree cannot
  -- have
  rcases splitPath_cases q with ⟨hle, hother⟩ | htrimmed
  · rw [hxp] at hle hother
    exact hother (h.blobs.treeLike.apart p q hpushed hpushed' hle)
  · exact hc ⟨hslashed p hp, hxp ▸ htrimmed⟩

/-! ## Pushes that are accepted -/

theorem Pushed.exists_edits (h : Pushed prefixes tree base pushed entries)
    (hcarried : ∀ p, base.get p ≠ pushed.get p → Carried p)
    (hlen : ∀ p, base.get p ≠ pushed.get p → 2 ≤ p.length) :
    ∃ edits, pushedCommitFileEdits blob (diffTokens entries) (lsTree pushed) = .ok edits := by
  obtain ⟨deleted, upserts, hparse, -, -, hdeleted, hupserts⟩ :=
    parseGitDiffNameStatus_answers h.answers (treeLike_of_projected h.proper h.projects) h.blobs.treeLike
  have hplace : ∀ p, base.get p ≠ pushed.get p → fromWorkspacePath "/" (joinParts p) = .ok p := by
    intro p hp
    obtain ⟨hne, hvalid⟩ := h.valid hp
    rw [fromWorkspacePath_root hvalid (hcarried p hp).1 hne, if_neg (Nat.not_lt.mpr (hlen p hp))]
  have hdelete : ∀ p, base.get p ≠ pushed.get p → deleteEdit (joinParts p) = .ok (.delete p) := by
    intro p hp
    rw [deleteEdit, hplace p hp]
    rfl
  obtain ⟨snapshot, hsnap⟩ : ∃ snapshot,
      gitFilesAtPaths GitFile.gitPath pushedFile (lsTree pushed) upserts = .ok snapshot := by
    refine exists_gitFilesAtPaths fun chunk hchunk r hr => ?_
    obtain ⟨p, f, hp, rfl, spec, hspec, hunder⟩ := mem_lsTree.mp hr
    -- the file listed for a path is the one at it
    obtain ⟨q, rfl, hq, hchanged⟩ := (hupserts spec).mp (mem_pathChunks.mp ⟨chunk, hchunk, hspec⟩)
    have hpq := eq_of_spec h.blobs.treeLike (by rw [hp]; simp) hq hunder
    rw [← hpq] at hchanged
    obtain ⟨m, hm, -⟩ := gitFileMode_parseOctal (h.blobs.modes p f hp)
    refine ⟨⟨p, joinParts p, m, f.contentHash⟩, ?_⟩
    rw [pushedFile, gitFile, hm, hplace p hchanged.symm]
    rfl
  obtain ⟨deletes, hdeletes⟩ : ∃ deletes, deleted.mapM deleteEdit = .ok deletes := by
    refine exists_mapM fun t ht => ?_
    obtain ⟨p, rfl, hp, hgone⟩ := (hdeleted t).mp ht
    exact ⟨_, hdelete p fun heq => hp (heq.trans hgone)⟩
  obtain ⟨writes, hwrites⟩ : ∃ writes, upserts.mapM (upsertEdit blob snapshot) = .ok writes := by
    refine exists_mapM fun t ht => ?_
    obtain ⟨p, rfl, -, hchanged⟩ := (hupserts t).mp ht
    rw [upsertEdit]
    split
    · exact ⟨_, rfl⟩
    · exact ⟨_, hdelete p hchanged.symm⟩
  exact ⟨_, bind_eq_ok.mpr ⟨_, hparse, bind_eq_ok.mpr ⟨snapshot, hsnap,
    bind_eq_ok.mpr ⟨deletes, hdeletes, bind_eq_ok.mpr ⟨writes, hwrites, rfl⟩⟩⟩⟩⟩

/-- A push that changes something is accepted when its changes lie in the slice, below an account
and a slice, and no file that the slice does not show is above a pushed one. -/
theorem push_accepted (h : Pushed prefixes tree base pushed entries)
    (hcarried : ∀ p, base.get p ≠ pushed.get p → Carried p) (hsome : ∃ p, base.get p ≠ pushed.get p)
    (hplaced : ∀ p, base.get p ≠ pushed.get p → 2 ≤ p.length ∧ inAnyPrefix prefixes p = true)
    (hshown : ∀ p q, pushed.get p ≠ none → q <+: p → tree.fileAt q ≠ none → base.get q ≠ none)
    (slice : String) : ∃ edits root,
      push blob prefixes slice (diffTokens entries) (lsTree pushed) tree = .ok (edits, root) := by
  obtain ⟨edits, hedits⟩ := h.exists_edits blob hcarried fun p hp => (hplaced p hp).1
  obtain ⟨raw, rfl, hraw, hmem⟩ := h.edits blob hcarried hedits
  have hperm := perm_sortEdits raw
  -- every changed path has an edit
  have hnonempty : sortEdits raw ≠ [] := by
    obtain ⟨p, hp⟩ := hsome
    obtain ⟨e, he⟩ : ∃ e, e ∈ raw := by
      cases hpushed : pushed.get p with
      | none => exact ⟨.delete p, (hmem _).mpr (.inl ⟨p, fun hnone => hp (hnone.trans hpushed.symm), hpushed, rfl⟩)⟩
      | some f => exact ⟨_, (hmem _).mpr (.inr ⟨p, f, hpushed, fun heq => hp heq.symm, rfl⟩)⟩
    exact ne_nil_of_mem (hperm.mem_iff.mpr he)
  have hcontained : ensurePushEditsContained prefixes slice (sortEdits raw) = .ok () := by
    refine forM_eq_ok fun e he => forM_eq_ok fun p hp => ?_
    have he' := hperm.mem_iff.mp he
    rw [hraw.path_of_mem_writes he' hp, if_pos (hplaced _ ((hmem e).mp he').changed).2]
  have hwritten : ∀ {f p}, ⟨.upsert f, p⟩ ∈ (sortEdits raw).map Edit.batch →
      pushed.get p ≠ none := by
    intro f p hp
    rcases (hmem _).mp (hperm.mem_iff.mp (mem_batch_upsert.mp hp)) with ⟨r, -, -, heq⟩ | ⟨r, g, hr, -, heq⟩
    · cases heq
    · cases heq
      rw [hr]
      simp
  have hfree : Unblocked tree ((sortEdits raw).map Edit.batch) := by
    intro f p hp q hq hne
    have hpp := hwritten hp
    have hqq : pushed.get q = none := by
      by_contra hq'
      exact hne (h.blobs.treeLike.apart q p hq' hpp hq)
    refine ⟨fun g hg => hwritten hg hqq, ?_⟩
    by_cases hfile : tree.fileAt q = none
    · exact .inl hfile
    · -- a file in the way is one that the push deletes
      have hdelete : .delete q ∈ raw := (hmem _).mpr (.inl ⟨q, hshown p q hpp hq hfile, hqq, rfl⟩)
      exact .inr ⟨_, mem_map_of_mem (hperm.mem_iff.mpr hdelete), prefix_refl q⟩
  obtain ⟨root, hroot⟩ := exists_applyEdits hraw hfree
  refine ⟨sortEdits raw, root, ?_⟩
  rw [push, hedits]
  dsimp only
  rw [if_neg hnonempty, hcontained]
  rw [hroot]

/-! ## Two pushes -/

variable {files : FileMap}

theorem blobTree_of_rows
    (hrows : ∀ row ∈ files.rows, (row.1 ≠ [] ∧ ∀ a ∈ row.1, validSegment a = true) ∧
      projectablePath row.1 = true ∧ row.2.mode ∈ blobModes)
    (hapart : ∀ row ∈ files.rows, ∀ row' ∈ files.rows, row.1 <+: row'.1 → row.1 = row'.1) :
    BlobTree files := by
  have hmem : ∀ {p}, files.get p ≠ none → ∃ f, (p, f) ∈ files.rows := by
    intro p hp
    obtain ⟨f, hf⟩ := Option.ne_none_iff_exists'.mp hp
    exact ⟨f, (files.mem_rows_iff p f).mpr hf⟩
  refine ⟨⟨fun p hp => ?_, fun p q hp hq => ?_⟩, fun p hp => ?_, fun p f hp => ?_⟩
  · obtain ⟨f, hf⟩ := hmem hp
    exact (hrows _ hf).1
  · obtain ⟨f, hf⟩ := hmem hp
    obtain ⟨g, hg⟩ := hmem hq
    exact hapart _ hf _ hg
  · obtain ⟨f, hf⟩ := hmem hp
    exact (hrows _ hf).2.1
  · exact (hrows _ ((files.mem_rows_iff p f).mpr hp)).2.2

variable {after : FileMap}

theorem mem_of_changed (h : files.get p ≠ after.get p) :
    p ∈ (files.rows ++ after.rows).map Prod.fst := by
  have hmem : ∀ {t : FileMap} {f}, t.get p = some f → p ∈ t.rows.map Prod.fst := fun hf =>
    mem_map.mpr ⟨_, (Table.mem_rows_iff _ p _).mpr hf, rfl⟩
  rw [map_append, mem_append]
  cases hp : files.get p with
  | some f => exact .inl (hmem hp)
  | none =>
    obtain ⟨f, hf⟩ := Option.ne_none_iff_exists'.mp fun hnone => h (hp.trans hnone.symm)
    exact .inr (hmem hf)

/-- `diff-tree` is right about two trees if it is about the paths of the two and those it prints. -/
theorem answers_of_rows (hstatus : ∀ s p, .upsert s p ∈ entries → s ∈ ['A', 'M', 'T'])
    (h : ∀ p ∈ (files.rows ++ after.rows).map Prod.fst ++ entries.flatMap DiffEntry.deleted ++
        entries.flatMap DiffEntry.upserted,
      (p ∈ entries.flatMap DiffEntry.deleted ↔ files.get p ≠ none ∧ after.get p = none) ∧
      (p ∈ entries.flatMap DiffEntry.upserted ↔ after.get p ≠ none ∧ after.get p ≠ files.get p)) :
    Answers files after entries where
  status := hstatus
  deleted p := by
    refine ⟨fun hp => (h p (by simp [hp])).1.mp hp, fun hp => ?_⟩
    have hmem := mem_of_changed fun heq => hp.1 (heq.trans hp.2)
    exact (h p (mem_append_left _ (mem_append_left _ hmem))).1.mpr hp
  upserted p := by
    refine ⟨fun hp => (h p (mem_append_right _ hp)).2.mp hp, fun hp => ?_⟩
    have hmem := mem_of_changed fun heq => hp.2 heq.symm
    exact (h p (mem_append_left _ (mem_append_left _ hmem))).2.mpr hp

/-- The slice that is pushed to. -/
def appPrefixes : List Path := [["acme", "app"]]

/-- The projected files of the slice: one in a folder. -/
def folderBase : FileMap :=
  (applyListing .empty (projectionTargets [["acme", "app", "d", "f"]] appPrefixes)
    (treeListing (folderTree "d"))).1

/-- The pushed file. -/
def pushedText : ProjectedFile := ⟨"100755", "hash2"⟩

theorem pushed_onto_folder (hblobs : BlobTree pushed)
    (hanswers : Answers folderBase pushed entries) :
    Pushed appPrefixes (folderTree "d") folderBase pushed entries := by
  have hfirst : (Node.nil).setFile ["acme", "app", "d", "f"] sampleFile = .ok (folderTree "d") := by
    decide +kernel
  have hempty : Node.nil.Proper := trivial
  have hproper : (folderTree "d").Proper := proper_setFile hempty (by decide) hfirst
  refine ⟨hproper, fun q => ?_, hblobs, hanswers⟩
  exact @applyListing_projected appPrefixes .nil ⟨"", folderTree "d", [["acme", "app", "d", "f"]]⟩
    (covered_setFile hfirst mem_cons_self) hproper (Legible.plain_targets (by decide)) .empty
    (fun p => by simp [projectedAt]) q

/-- The blobs of the pushes. -/
def blobOf (hash : String) : String × Nat := ("blob_" ++ hash, 5)

/-- The pushed tree in which the file of the folder has become a folder with a file. -/
def fileToFolder : FileMap :=
  (folderBase.erase ["acme", "app", "d", "f"]).set ["acme", "app", "d", "f", "g"] pushedText

theorem push_accepted_fileToFolder : ∃ edits root,
    push blobOf appPrefixes ""
        (diffTokens [.upsert 'A' ["acme", "app", "d", "f", "g"], .delete ["acme", "app", "d", "f"]])
        (lsTree fileToFolder) (folderTree "d") = .ok (edits, root) := by
  have hanswers : Answers folderBase fileToFolder
      [.upsert 'A' ["acme", "app", "d", "f", "g"], .delete ["acme", "app", "d", "f"]] :=
    answers_of_rows (by simp) (by decide +kernel)
  have hchanged : ∀ p ∈ (folderBase.rows ++ fileToFolder.rows).map Prod.fst,
      Carried p ∧ 2 ≤ p.length ∧ inAnyPrefix appPrefixes p = true := by decide +kernel
  have habove : ∀ row ∈ fileToFolder.rows, ∀ q ∈ row.1.inits,
      (folderTree "d").fileAt q ≠ none → folderBase.get q ≠ none := by decide +kernel
  refine push_accepted _ (pushed_onto_folder (blobTree_of_rows (by decide +kernel) (by decide +kernel))
    hanswers) (fun p hp => (hchanged p (mem_of_changed hp)).1) ⟨["acme", "app", "d", "f"], by decide +kernel⟩
    (fun p hp => (hchanged p (mem_of_changed hp)).2) (fun p q hp hq => ?_) _
  obtain ⟨f, hf⟩ := Option.ne_none_iff_exists'.mp hp
  exact habove _ ((Table.mem_rows_iff _ p f).mpr hf) q ((mem_inits q p).mpr hq)

/-- A push of a file beside the folder. -/
theorem push_lossless_besideFolder : ∃ edits root,
    push blobOf appPrefixes "acme/app" (diffTokens [.upsert 'A' ["acme", "app", "a b"]])
        (lsTree (folderBase.set ["acme", "app", "a b"] pushedText)) (folderTree "d") =
          .ok (edits, root) ∧
      Lossless appPrefixes folderBase (folderBase.set ["acme", "app", "a b"] pushedText) edits root := by
  have hanswers : Answers folderBase (folderBase.set ["acme", "app", "a b"] pushedText)
      [.upsert 'A' ["acme", "app", "a b"]] := answers_of_rows (by simp) (by decide +kernel)
  have hblobs : BlobTree (folderBase.set ["acme", "app", "a b"] pushedText) :=
    blobTree_of_rows (by decide +kernel) (by decide +kernel)
  have hchanged : ∀ p ∈ (folderBase.rows ++ (folderBase.set ["acme", "app", "a b"] pushedText).rows).map
      Prod.fst, Carried p := by decide +kernel
  have haccepted : (push blobOf appPrefixes "acme/app" (diffTokens [.upsert 'A' ["acme", "app", "a b"]])
      (lsTree (folderBase.set ["acme", "app", "a b"] pushedText)) (folderTree "d")).toOption.isSome = true := by
    decide +kernel
  obtain ⟨⟨edits, root⟩, hpush⟩ := Option.isSome_iff_exists.mp haccepted
  have hpush := toOption_eq_some.mp hpush
  exact ⟨edits, root, hpush, (push_lossless blobOf (pushed_onto_folder hblobs hanswers) hpush
    fun p hp _ => hchanged p (mem_of_changed hp)).mpr fun p hp => hchanged p (mem_of_changed hp)⟩

/-- **A push of a file with a backslash in its name** is accepted and writes another file: the
pushed file is lost, and so is the content of the file it was taken for. -/
theorem push_renames_backslash : ∃ pushed edits root,
    Pushed appPrefixes (folderTree "d") folderBase pushed [.upsert 'A' ["acme", "app", "d\\f"]] ∧
      push blobOf appPrefixes "acme/app" (diffTokens [.upsert 'A' ["acme", "app", "d\\f"]])
        (lsTree pushed) (folderTree "d") = .ok (edits, root) ∧
      pushed.get ["acme", "app", "d\\f"] = some pushedText ∧
      pushed.get ["acme", "app", "d", "f"] = some ⟨"100644", "hash"⟩ ∧
      (applyListing folderBase (projectionTargets (edits.map Edit.path) appPrefixes)
        (treeListing root)).1.get ["acme", "app", "d\\f"] = none ∧
      (applyListing folderBase (projectionTargets (edits.map Edit.path) appPrefixes)
        (treeListing root)).1.get ["acme", "app", "d", "f"] = some pushedText := by
  have hblobs : BlobTree (folderBase.set ["acme", "app", "d\\f"] pushedText) :=
    blobTree_of_rows (by decide +kernel) (by decide +kernel)
  refine ⟨folderBase.set ["acme", "app", "d\\f"] pushedText,
    [.upsert ["acme", "app", "d", "f"] (pushedEntry blobOf pushedText)],
    .directory "acme" (.directory "app" (.directory "d"
      (.file "f" (pushedEntry blobOf pushedText) .nil) .nil) .nil) .nil,
    pushed_onto_folder hblobs (answers_of_rows (by simp) (by decide +kernel)), ?_, by decide +kernel, by decide +kernel,
    by decide +kernel, by decide +kernel⟩
  have hpush : (push blobOf appPrefixes "acme/app" (diffTokens [.upsert 'A' ["acme", "app", "d\\f"]])
      (lsTree (folderBase.set ["acme", "app", "d\\f"] pushedText)) (folderTree "d")).toOption =
      some ([.upsert ["acme", "app", "d", "f"] (pushedEntry blobOf pushedText)],
        .directory "acme" (.directory "app" (.directory "d"
          (.file "f" (pushedEntry blobOf pushedText) .nil) .nil) .nil) .nil) := by
    decide +kernel
  exact toOption_eq_some.mp hpush

end GitPush

end GitSlice
