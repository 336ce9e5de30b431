import GitSlice.GitCompat.CanonicalTree
import GitSlice.PathText

/-! # What Git answers about commits
A push and an import learn what a commit changed from `git diff-tree --name-status -z` and read the
new files with `git ls-tree -z`; both packages have the same `parseGitDiffNameStatus` and
`gitFilesAtPaths`.

`Answers` says that a listing of `diff-tree` is right about two trees of blobs, whatever it takes
for a rename, and `lsTree` is what `ls-tree` lists. `parseGitDiffNameStatus_answers` says what is
read from such a listing: the paths that are gone, and those whose file is new or changed. -/

namespace GitSlice

open List GitSlice.Except

/-- One entry of `git diff-tree -r -z --name-status --find-renames`. -/
inductive DiffEntry where
  /-- A file that was added (`A`), modified (`M`) or whose type changed (`T`). -/
  | upsert (status : Char) (path : Path)
  /-- A file that was deleted (`D`). -/
  | delete (path : Path)
  /-- A file that went away and one like it that appeared (`R` and a score). -/
  | rename (score : String) (old path : Path)

namespace DiffEntry

/-- The entry as it is printed, cut at the NUL bytes. -/
def tokens : DiffEntry → List String
  | upsert status p => [String.ofList [status], joinParts p]
  | delete p => ["D", joinParts p]
  | rename score old p => ["R" ++ score, joinParts old, joinParts p]

/-- The paths the entry says are gone. -/
def deleted : DiffEntry → List Path
  | upsert _ _ => []
  | delete p => [p]
  | rename _ old _ => [old]

/-- The paths the entry says have a new file. -/
def upserted : DiffEntry → List Path
  | upsert _ p => [p]
  | delete _ => []
  | rename _ _ p => [p]

end DiffEntry

/-- The output of `diff-tree`, cut at the NUL bytes: one is at its end. -/
def diffTokens (entries : List DiffEntry) : List String := entries.flatMap DiffEntry.tokens ++ [""]

/-- `diff-tree` is right about two trees of blobs. -/
structure Answers (before after : FileMap) (entries : List DiffEntry) : Prop where
  status : ∀ s p, .upsert s p ∈ entries → s ∈ ['A', 'M', 'T']
  deleted : ∀ p, p ∈ entries.flatMap DiffEntry.deleted ↔ before.get p ≠ none ∧ after.get p = none
  upserted : ∀ p, p ∈ entries.flatMap DiffEntry.upserted ↔
    after.get p ≠ none ∧ after.get p ≠ before.get p

/-- The loop of `parseGitDiffNameStatus` over the tokens, with the deleted and the upserted paths
found so far. -/
def parseTokens (deleted upserts : List String) :
    List String → Except String (List String × List String)
  | [] => .ok (deleted, upserts)
  | status :: rest =>
    match status.toList with
    | [] => parseTokens deleted upserts rest
    | kind :: _ =>
      if kind ∈ ['A', 'C', 'M', 'T'] then
        match rest with
        | [] => .error ("malformed git diff status " ++ quote status)
        | p :: rest => parseTokens deleted (upserts ++ [p]) rest
      else if kind = 'D' then
        match rest with
        | [] => .error ("malformed git diff status " ++ quote status)
        | p :: rest => parseTokens (deleted ++ [p]) upserts rest
      else if kind = 'R' then
        match rest with
        | old :: p :: rest => parseTokens (deleted ++ [old]) (upserts ++ [p]) rest
        | _ => .error ("malformed git rename status " ++ quote status)
      else .error ("unsupported git diff status " ++ quote status)

/-- A set of texts, sorted. -/
def sortedTexts (l : List String) : List String := l.dedup.insertionSort (· ≤ ·)

/-- `parseGitDiffNameStatus`: the deleted and the upserted paths. -/
def parseGitDiffNameStatus (tokens : List String) : Except String (List String × List String) := do
  let (deleted, upserts) ← parseTokens [] [] tokens
  return (sortedTexts (deleted.filter fun p => p ∉ upserts), sortedTexts upserts)

variable {t : String}

theorem mem_sortedTexts {l : List String} : t ∈ sortedTexts l ↔ t ∈ l := by
  rw [sortedTexts, (perm_insertionSort _ _).mem_iff, mem_dedup]

theorem nodup_sortedTexts (l : List String) : (sortedTexts l).Nodup :=
  (perm_insertionSort _ _).nodup_iff.mpr (nodup_dedup l)

theorem parseTokens_entries {entries : List DiffEntry}
    (hstatus : ∀ s p, .upsert s p ∈ entries → s ∈ ['A', 'M', 'T']) (deleted upserts : List String) :
    parseTokens deleted upserts (diffTokens entries) =
      .ok (deleted ++ (entries.flatMap DiffEntry.deleted).map joinParts,
        upserts ++ (entries.flatMap DiffEntry.upserted).map joinParts) := by
  induction entries generalizing deleted upserts with
  | nil => simp [diffTokens, parseTokens]
  | cons e entries ih =>
    have hrest := ih fun s p hmem => hstatus s p (mem_cons_of_mem e hmem)
    have htokens : diffTokens (e :: entries) = e.tokens ++ diffTokens entries := by
      simp [diffTokens]
    rw [htokens]
    cases e with
    | upsert s p =>
      have hs : s ∈ ['A', 'C', 'M', 'T'] := by
        have := hstatus s p mem_cons_self
        simp only [mem_cons] at this ⊢
        tauto
      simp only [DiffEntry.tokens, cons_append, nil_append, parseTokens,
        String.toList_ofList, if_pos hs, hrest]
      simp [DiffEntry.deleted, DiffEntry.upserted]
    | delete =>
      simp only [DiffEntry.tokens, cons_append, nil_append, parseTokens,
        show "D".toList = ['D'] from rfl]
      rw [if_neg (by decide), hrest]
      simp [DiffEntry.deleted, DiffEntry.upserted]
    | rename =>
      simp only [DiffEntry.tokens, cons_append, nil_append, parseTokens,
        String.toList_append, show "R".toList = ['R'] from rfl]
      rw [hrest]
      simp [DiffEntry.deleted, DiffEntry.upserted]

section Answers

variable {before after : FileMap} {entries : List DiffEntry}

/-- **What is read from a right answer**: the paths that are gone, and those whose file is new or
changed. -/
theorem parseGitDiffNameStatus_answers (h : Answers before after entries)
    (hbefore : before.TreeLike) (hafter : after.TreeLike) : ∃ deleted upserts,
      parseGitDiffNameStatus (diffTokens entries) = .ok (deleted, upserts) ∧
      deleted.Nodup ∧ upserts.Nodup ∧
      (∀ t, t ∈ deleted ↔ ∃ p, t = joinParts p ∧ before.get p ≠ none ∧ after.get p = none) ∧
      ∀ t, t ∈ upserts ↔ ∃ p, t = joinParts p ∧ after.get p ≠ none ∧
        after.get p ≠ before.get p := by
  refine ⟨_, _, by rw [parseGitDiffNameStatus, parseTokens_entries h.status]; rfl,
    nodup_sortedTexts _, nodup_sortedTexts _, fun t => ?_, fun t => ?_⟩
  · simp only [mem_sortedTexts, nil_append, mem_filter, decide_eq_true_eq, mem_map]
    constructor
    · rintro ⟨⟨p, hp, rfl⟩, -⟩
      exact ⟨p, rfl, (h.deleted p).mp hp⟩
    · rintro ⟨p, rfl, hp⟩
      refine ⟨⟨p, (h.deleted p).mpr hp, rfl⟩, ?_⟩
      -- a path that is gone is not one with a new file
      rintro ⟨q, hq, heq⟩
      have hq' := (h.upserted q).mp hq
      have hqp := joinParts_injective (hafter.proper q hq'.1).2 (hbefore.proper p hp.1).2 heq
      rw [hqp] at hq'
      exact hq'.1 hp.2
  · rw [mem_sortedTexts, nil_append, mem_map]
    constructor
    · rintro ⟨p, hp, rfl⟩
      exact ⟨p, rfl, (h.upserted p).mp hp⟩
    · rintro ⟨p, rfl, hp⟩
      exact ⟨p, (h.upserted p).mpr hp, rfl⟩

end Answers

/-! ## The files of a commit -/

/-- A record of `git ls-tree -r -z`, with the content of the object. -/
structure TreeRecord where
  /-- The mode, in octal digits. -/
  mode : String
  /-- The type of the object. -/
  kind : String
  path : String
  contentHash : String

/-- `ls-tree` with literal path specs: the files at one of them or in a directory that is one. -/
def lsTree (files : FileMap) (specs : List String) : List TreeRecord :=
  (files.rows.filter fun row => specs.any fun spec =>
    joinParts row.1 = spec || (spec ++ "/").toList.isPrefixOf (joinParts row.1).toList).map fun row =>
      ⟨row.2.mode, "blob", joinParts row.1, row.2.contentHash⟩

/-- `strconv.ParseUint(s, 8, 32)`. -/
def parseOctal (s : String) : Option Nat :=
  if s = "" then none
  else (s.toList.foldlM (fun n c => if '0' ≤ c ∧ c ≤ '7' then some (8 * n + (c.toNat - '0'.toNat)) else none)
    0).filter (· < 2 ^ 32)

/-- `pushedGitFile`, and `importFile`: a file of the commit, with its place in the native tree. -/
structure GitFile where
  /-- The native path. -/
  path : Path
  gitPath : String
  mode : Nat
  contentHash : String
deriving DecidableEq

/-- The entry of the native tree for a file, with the id and the size its content is stored
under. -/
def GitFile.entry (blob : String → String × Nat) (f : GitFile) : FileEntry :=
  ⟨f.mode, (blob f.contentHash).1, f.contentHash, (blob f.contentHash).2⟩

/-- A record of a blob as a file under a mount path. -/
def gitFile (mount : String) (record : TreeRecord) : Except String GitFile :=
  match parseOctal record.mode with
  | none => .error ("strconv.ParseUint: parsing " ++ quote record.mode ++ ": invalid syntax")
  | some mode => do
    let path ← fromWorkspacePath mount record.path
    return ⟨path, record.path, mode, record.contentHash⟩

/-- The slices of 512 paths `gitFilesAtPaths` asks for. -/
def pathChunks (paths : List String) : List (List String) :=
  (List.range ((paths.length + 511) / 512)).map fun i => (paths.drop (512 * i)).take 512

theorem mem_pathChunks {paths : List String} :
    (∃ chunk ∈ pathChunks paths, t ∈ chunk) ↔ t ∈ paths := by
  constructor
  · rintro ⟨chunk, hchunk, ht⟩
    obtain ⟨i, -, rfl⟩ := mem_map.mp hchunk
    exact mem_of_mem_drop (mem_of_mem_take ht)
  · intro ht
    obtain ⟨j, hj, rfl⟩ := getElem_of_mem ht
    refine ⟨_, mem_map.mpr ⟨j / 512, mem_range.mpr ?_, rfl⟩, ?_⟩
    · omega
    · -- the path is the one at `j % 512` of its slice
      rw [mem_take_iff_getElem]
      refine ⟨j % 512, ?_, ?_⟩
      · rw [length_drop]
        omega
      · rw [getElem_drop]
        congr 1
        omega

section Snapshots

variable {κ : Type} [DecidableEq κ] (key : GitFile → κ) (read : TreeRecord → Except String GitFile)

/-- `gitSnapshotFromTreeRecords`: the files of the records, by a key. -/
def gitSnapshotFromTreeRecords (records : List TreeRecord) : Except String (Table κ GitFile) := do
  let files ← records.mapM read
  return .ofRows (files.map fun f => (key f, f))

/-- `gitFilesAtPaths`: the files at the paths, asked for in slices. -/
def gitFilesAtPaths (ls : List String → List TreeRecord) (paths : List String) :
    Except String (Table κ GitFile) := do
  let chunks ← (pathChunks paths).mapM fun chunk => gitSnapshotFromTreeRecords key read (ls chunk)
  return .ofRows (chunks.flatMap Table.rows)

variable {key read} {ls : List String → List TreeRecord} {paths : List String}
  {snapshot : Table κ GitFile} {records : List TreeRecord} {f : GitFile} {k : κ}

theorem mem_of_get_snapshot (h : gitSnapshotFromTreeRecords key read records = .ok snapshot)
    (hget : snapshot.get k = some f) : key f = k ∧ ∃ r ∈ records, read r = .ok f := by
  obtain ⟨files, hfiles, hret⟩ := bind_eq_ok.mp h
  cases hret
  obtain ⟨f', hf', heq⟩ := mem_map.mp (Table.mem_of_get_ofRows hget)
  cases heq
  exact ⟨rfl, exists_of_mapM hfiles hf'⟩

variable {r : TreeRecord}

theorem exists_get_snapshot (h : gitSnapshotFromTreeRecords key read records = .ok snapshot)
    (hr : r ∈ records) :
    ∃ f, read r = .ok f ∧ ∃ f', snapshot.get (key f) = some f' := by
  obtain ⟨files, hfiles, hret⟩ := bind_eq_ok.mp h
  cases hret
  obtain ⟨f, hf, hread⟩ := exists_mapM_of_mem hfiles hr
  refine ⟨f, hread, Table.exists_get_ofRows ?_⟩
  rw [map_map]
  exact mem_map.mpr ⟨f, hf, rfl⟩

theorem mem_of_get_gitFilesAtPaths (h : gitFilesAtPaths key read ls paths = .ok snapshot)
    (hget : snapshot.get k = some f) :
    key f = k ∧ ∃ chunk ∈ pathChunks paths, ∃ r ∈ ls chunk, read r = .ok f := by
  obtain ⟨chunks, hchunks, hret⟩ := bind_eq_ok.mp h
  cases hret
  obtain ⟨t, ht, hmem⟩ := mem_flatMap.mp (Table.mem_of_get_ofRows hget)
  obtain ⟨chunk, hchunk, hread⟩ := exists_of_mapM hchunks ht
  obtain ⟨hkey, r, hr, hf⟩ := mem_of_get_snapshot hread ((t.mem_rows_iff k f).mp hmem)
  exact ⟨hkey, chunk, hchunk, r, hr, hf⟩

theorem exists_get_gitFilesAtPaths (h : gitFilesAtPaths key read ls paths = .ok snapshot)
    {chunk : List String} (hchunk : chunk ∈ pathChunks paths) (hr : r ∈ ls chunk) :
    ∃ f, read r = .ok f ∧ ∃ f', snapshot.get (key f) = some f' := by
  obtain ⟨chunks, hchunks, hret⟩ := bind_eq_ok.mp h
  cases hret
  obtain ⟨t, ht, hsnap⟩ := exists_mapM_of_mem hchunks hchunk
  obtain ⟨f, hread, f', hf'⟩ := exists_get_snapshot hsnap hr
  refine ⟨f, hread, Table.exists_get_ofRows ?_⟩
  exact mem_map.mpr ⟨(key f, f'), mem_flatMap.mpr ⟨t, ht, (t.mem_rows_iff _ _).mpr hf'⟩, rfl⟩

theorem exists_gitFilesAtPaths
    (h : ∀ chunk ∈ pathChunks paths, ∀ r ∈ ls chunk, ∃ f, read r = .ok f) :
    ∃ snapshot, gitFilesAtPaths key read ls paths = .ok snapshot := by
  obtain ⟨chunks, hchunks⟩ : ∃ chunks, (pathChunks paths).mapM
      (fun chunk => gitSnapshotFromTreeRecords key read (ls chunk)) = .ok chunks := by
    refine exists_mapM fun chunk hchunk => ?_
    obtain ⟨files, hfiles⟩ := exists_mapM (h chunk hchunk)
    exact ⟨_, bind_eq_ok.mpr ⟨files, hfiles, rfl⟩⟩
  exact ⟨_, bind_eq_ok.mpr ⟨chunks, hchunks, rfl⟩⟩

end Snapshots

/-- The modes Git gives to blobs. -/
def blobModes : List String := ["100644", "100755", "120000"]

/-- A tree of blobs with names that Git allows. -/
structure BlobTree (files : FileMap) : Prop where
  treeLike : files.TreeLike
  names : ∀ p, files.get p ≠ none → projectablePath p = true
  modes : ∀ p f, files.get p = some f → f.mode ∈ blobModes

theorem gitFileMode_parseOctal {mode : String} (h : mode ∈ blobModes) :
    ∃ m, parseOctal mode = some m ∧ gitFileMode m = mode := by
  simp only [blobModes, mem_cons, not_mem_nil, or_false] at h
  rcases h with rfl | rfl | rfl
  · exact ⟨0o100644, by decide +kernel, by decide⟩
  · exact ⟨0o100755, by decide +kernel, by decide⟩
  · exact ⟨0o120000, by decide +kernel, by decide⟩

variable {files : FileMap}

theorem mem_lsTree {specs : List String} {r : TreeRecord} :
    r ∈ lsTree files specs ↔ ∃ p f, files.get p = some f ∧
      r = ⟨f.mode, "blob", joinParts p, f.contentHash⟩ ∧
      ∃ spec ∈ specs, joinParts p = spec ∨ (spec ++ "/").toList <+: (joinParts p).toList := by
  simp only [lsTree, mem_map, mem_filter, any_eq_true, Bool.or_eq_true,
    decide_eq_true_eq, isPrefixOf_iff_prefix]
  constructor
  · rintro ⟨⟨p, f⟩, ⟨hmem, hspec⟩, rfl⟩
    exact ⟨p, f, (files.mem_rows_iff p f).mp hmem, rfl, hspec⟩
  · rintro ⟨p, f, hget, rfl, hspec⟩
    exact ⟨(p, f), ⟨(files.mem_rows_iff p f).mpr hget, hspec⟩, rfl⟩

/-- Where a path names a file, `ls-tree` lists that file for it and nothing else. -/
theorem eq_of_spec (h : files.TreeLike) {p q : Path} (hp : files.get p ≠ none)
    (hq : files.get q ≠ none)
    (hspec : joinParts p = joinParts q ∨ (joinParts q ++ "/").toList <+: (joinParts p).toList) :
    p = q := by
  obtain ⟨hpne, hpv⟩ := h.proper p hp
  obtain ⟨hqne, hqv⟩ := h.proper q hq
  rcases hspec with heq | hunder
  · exact joinParts_injective hpv hqv heq
  · refine (h.apart q p hq hp ?_).symm
    -- the text of `p` has the segments of `q` and then more
    obtain ⟨t, ht⟩ := hunder
    have hsplit := splitOn_joinParts hpv hpne
    rw [← ht, String.toList_append, show "/".toList = ['/'] from rfl, append_assoc,
      singleton_append, splitOn_append_cons_self, splitOn_joinParts hqv hqne] at hsplit
    obtain ⟨p₁, p₂, rfl, hq₁, -⟩ := map_eq_append_iff.mp hsplit.symm
    rw [map_injective_iff.mpr (fun _ _ => String.toList_inj.mp) hq₁]
    exact prefix_append _ _

end GitSlice
