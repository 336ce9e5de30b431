import GitSlice.Store.State
import GitSlice.TreeStore.Flat
import GitSlice.TreeStore.Read

/-! # Path heads
`path_heads` is what the store compares a submit with: for a path, the entry that the admitted
changesets leave there. This module embeds the functions that read and write it: the comparison at
admission with rows initialised on the way (`path_bases.go`), the edits applied at admission, and
the refresh from a published root (`path_heads.go`).

The lemmas say what each does to the row of a path: `get_acceptedHeads`,
`get_applyPathHeadEdits_of_notMem` with `headEffect_applyPathHeadEdits`, and `get_refreshFrom`. -/

namespace GitSlice

open Node List Table

/-! ## Heads of entries -/

namespace PathHead

/-- The head of a path without an entry. -/
def missing : PathHead := ⟨false, .missing, none⟩

/-- `pathHeadFromFile`. -/
def ofFile (f : FileEntry) : PathHead := ⟨true, fileEntryFingerprint f, some f⟩

/-- `pathHeadFromTreeEntry`. -/
def ofEntry : Entry → PathHead
  | .file f => ofFile f
  | .directory c => ⟨true, .directory c, none⟩

/-- The head of what is at a path. -/
def ofLookup : Option Entry → PathHead
  | none => missing
  | some e => ofEntry e

end PathHead

/-- The head of a path in a tree: `getEntryFromTree`, where `ErrNotFound` is no entry. -/
def headAt (root : Node) (p : Path) : PathHead := PathHead.ofLookup (root.getEntry (splitPath p))

/-- `pathBase`: what a patchset records about a path of its base tree. -/
def pathBase (root : Node) (p : Path) : PathBase where
  path := p
  present := (headAt root p).present
  fingerprint := (headAt root p).fingerprint

/-- The base is what the head holds. -/
def validateAcceptedPathBase (head : PathHead) (base : PathBase) : Bool :=
  if head.present then base.present && head.fingerprint == base.fingerprint
  else !base.present && base.fingerprint == .missing

/-! ## Admission: comparing with the heads -/

/-- The blob with a content hash, with its id. -/
def blobByHash (blobs : Table BlobID Blob) (hash : String) : Option (BlobID × Blob) :=
  blobs.rows.find? fun b => b.2.contentHash == hash

/-- The head a path starts with: from the flat index when it reflects the ref's commit
(`initialAcceptedPathHeadsFromCurrentEntitiesTx`), else from the tree
(`initialAcceptedPathHeadsFromTreeTx`). In the runs of the theorems there is no flat index, so it is
always the tree that is read. -/
def initialPathHead (s : State) (root : Node) (p : Path) : PathHead :=
  match s.flatIndex with
  | none => headAt root p
  | some (marker, entities) =>
    if marker = s.ref then
      match entities.get p with
      | none => .missing
      | some e =>
        match blobByHash s.blobs e.contentHash with
        | none => headAt root p
        | some (id, blob) =>
          if e.isFile ∧ e.contentHash ≠ "" ∧ id ≠ "" ∧ 0 < e.mode then
            .ofFile ⟨e.mode, id, e.contentHash, blob.size⟩
          else headAt root p
    else headAt root p

/-- The heads with a row for each base: those that have none get their initial head. A base whose
path ends in white space, which the source refuses, is taken like the others. -/
def acceptedHeads (s : State) (bases : List PathBase) : Except StoreError (Table Path PathHead) :=
  match s.rootTree s.ref with
  | none => .error .notFound
  | some root =>
    .ok (bases.foldl (fun heads b => heads.insertNew b.path (initialPathHead s root b.path)) s.pathHeads)

/-- Every base agrees with the head of its path. -/
def pathBasesHold (heads : Table Path PathHead) (bases : List PathBase) : Bool :=
  bases.all fun b =>
    match heads.get b.path with
    | none => false
    | some head => validateAcceptedPathBase head b

/-! ## Admission: applying the edits -/

/-- The file an upsert writes, from its blob. -/
def uploadedEntry (blobs : Table BlobID Blob) (f : UploadedFile) : Except StoreError FileEntry :=
  match blobs.get f.blobId with
  | none => .error .notFound
  | some blob => .ok ⟨f.mode, f.blobId, blob.contentHash, blob.size⟩

/-- The body of the loop of `applyPathHeadEditsTx`. Rows below a path are not touched. -/
def applyPathHeadEdit (blobs : Table BlobID Blob) (heads : Table Path PathHead) :
    FileEdit → Except StoreError (Table Path PathHead)
  | .mkdir p => .ok (heads.set p (.ofEntry (.directory .nil)))
  | .delete p => .ok (heads.set p .missing)
  | .rename old p =>
    match heads.get old with
    | none => .error (.conflict "")
    | some head =>
      if head.present then .ok ((heads.set old .missing).set p head) else .error (.conflict "")
  | .copy old p =>
    match heads.get old with
    | none => .error (.conflict "")
    | some head => if head.present then .ok (heads.set p head) else .error (.conflict "")
  | .upsert p f => do
    let file ← uploadedEntry blobs f
    return heads.set p (.ofFile file)

/-- `applyPathHeadEditsTx`. -/
def applyPathHeadEdits (blobs : Table BlobID Blob) (heads : Table Path PathHead)
    (edits : List FileEdit) : Except StoreError (Table Path PathHead) :=
  edits.foldlM (applyPathHeadEdit blobs) heads

/-- The tree edit of a patchset's edit. -/
def treeEdit (blobs : Table BlobID Blob) : FileEdit → Except StoreError TreeEdit
  | .upsert p f => do
    let file ← uploadedEntry blobs f
    return .upsert p file
  | .delete p => .ok (.delete p)
  | .mkdir p => .ok (.mkdir p)
  | .rename old p => .ok (.rename old p)
  | .copy old p => .ok (.copy old p)

/-- The edits as the tree store takes them. -/
def treeEditsFromPatchset (blobs : Table BlobID Blob) (edits : List FileEdit) :
    Except StoreError (List TreeEdit) :=
  edits.mapM (treeEdit blobs)

/-! ## Publishing: refreshing from a root -/

/-- The directories above a path, the root left out. -/
def parents (p : Path) : List Path := p.inits.filter fun q => q ≠ [] ∧ q ≠ p

/-- A path whose head is to be read again. -/
def addPathHeadRefreshPath (seen : Table Path Bool) (p : Path) (recursiveSelf includeSelf : Bool) :
    Table Path Bool :=
  let seen := if includeSelf then seen.set p ((seen.get p).getD false || recursiveSelf) else seen
  (parents p).foldl (fun seen q => seen.insertNew q false) seen

/-- The paths one edit refreshes, added to those seen. An upsert refreshes only what is above it. -/
def addRefreshTargets (seen : Table Path Bool) : FileEdit → Table Path Bool
  | .mkdir p => addPathHeadRefreshPath seen p false true
  | .delete p => addPathHeadRefreshPath seen p true true
  | .rename old p => addPathHeadRefreshPath (addPathHeadRefreshPath seen old true true) p true true
  | .copy _ p => addPathHeadRefreshPath seen p true true
  | .upsert p _ => addPathHeadRefreshPath seen p false false

/-- `pathHeadRefreshTargetsForEdits`: each path with whether everything below it is refreshed
too. -/
def pathHeadRefreshTargetsForEdits (edits : List FileEdit) : List (Path × Bool) :=
  (edits.foldl addRefreshTargets .empty).rows.insertionSort fun a b =>
    renderPath a.1 ≤ renderPath b.1

/-- `appendPathHeadSubtree`. Each directory is listed by its path, which is split again: a name that
ends in white space lists another directory, and a recursion deeper than the tree never ends. -/
def appendPathHeadSubtree (root : Node) : Nat → Path → Entry → Option (List (Path × PathHead))
  | 0, _, _ => none
  | _ + 1, p, .file f => some [(p, .ofFile f)]
  | fuel + 1, p, .directory c => do
    let below ← (root.listDirectory (splitPath p)).mapM fun e => appendPathHeadSubtree root fuel e.1 e.2
    return (p, .ofEntry (.directory c)) :: below.flatten

/-- `flushPending`. -/
def flushHeads : List (Path × PathHead) → List PathHeadMutation
  | [] => []
  | heads => [.heads heads]

/-- The loop of `pathHeadMutationsForPatchsetRoot` over the refresh targets, with the heads not yet
flushed. -/
def refreshFrom (root : Node) (pending : List (Path × PathHead)) :
    List (Path × Bool) → Option (List PathHeadMutation)
  | [] => some (flushHeads pending)
  | (p, deep) :: rest =>
    match root.getEntry (splitPath p) with
    | none => do
      let more ← refreshFrom root [] rest
      return flushHeads pending ++ .delete p :: more
    | some (.file f) => refreshFrom root (pending ++ [(splitPath p, .ofFile f)]) rest
    | some (.directory c) =>
      if deep then do
        let heads ← appendPathHeadSubtree root (root.depth + 1) (splitPath p) (.directory c)
        refreshFrom root (pending ++ heads) rest
      else refreshFrom root (pending ++ [(splitPath p, .ofEntry (.directory c))]) rest

/-- The new heads, read from the new tree. -/
def pathHeadMutationsForPatchsetRoot (root : Node) (edits : List FileEdit) :
    Option (List PathHeadMutation) :=
  refreshFrom root [] (pathHeadRefreshTargetsForEdits edits)

/-- `upsertPathHeadsTx` or `markPathHeadDeletedRecursiveTx`. -/
def applyPathHeadMutation (heads : Table Path PathHead) : PathHeadMutation → Table Path PathHead
  | .heads new => new.foldl (fun heads h => heads.set h.1 h.2) heads
  | .delete p => (heads.update fun q h => if contains p q then .missing else h).set p .missing

/-- `applyPublishPathHeadMutationsTx`. -/
def applyPathHeadMutations (heads : Table Path PathHead) (mutations : List PathHeadMutation) :
    Table Path PathHead :=
  mutations.foldl applyPathHeadMutation heads

/-! ## What admission does to a row -/

variable {s : State} {bases : List PathBase} {heads : Table Path PathHead} {p : Path}

section

variable (h : acceptedHeads s bases = .ok heads)
include h

/-- Comparing with the heads gives the paths compared a row, and leaves the rows there are. -/
theorem get_acceptedHeads :
    ∃ root, s.rootTree s.ref = some root ∧ ∀ p, heads.get p =
      if p ∈ bases.map PathBase.path then some ((s.pathHeads.get p).getD (initialPathHead s root p))
      else s.pathHeads.get p := by
  rw [acceptedHeads] at h
  split at h
  · cases h
  · rename_i root hroot
    cases h
    refine ⟨root, hroot, fun p => ?_⟩
    have hget := get_foldl_insertNew (initialPathHead s root) (bases.map PathBase.path) s.pathHeads p
    rw [foldl_map] at hget
    refine hget.trans ?_
    congr

theorem extends_acceptedHeads : s.pathHeads.Extends heads := by
  obtain ⟨root, -, hget⟩ := get_acceptedHeads h
  intro p head hp
  rw [hget, hp]
  split_ifs <;> rfl

theorem isSome_acceptedHeads (hp : (s.pathHeads.get p).isSome) : (heads.get p).isSome := by
  obtain ⟨head, hhead⟩ := Option.isSome_iff_exists.mp hp
  exact Option.isSome_of_eq_some (extends_acceptedHeads h p head hhead)

theorem exists_acceptedHead {b : PathBase} (hb : b ∈ bases) :
    ∃ head, heads.get b.path = some head := by
  obtain ⟨root, -, hget⟩ := get_acceptedHeads h
  rw [hget, if_pos (mem_map_of_mem hb)]
  exact ⟨_, rfl⟩

end

theorem validateAcceptedPathBase_iff {entry : Option Entry} {b : PathBase} :
    validateAcceptedPathBase (.ofLookup entry) b = true ↔
      b.present = (PathHead.ofLookup entry).present ∧
        b.fingerprint = (PathHead.ofLookup entry).fingerprint := by
  cases entry with
  | none => simp [validateAcceptedPathBase, PathHead.ofLookup, PathHead.missing]
  | some e =>
    have hpresent : (PathHead.ofEntry e).present = true := by cases e <;> rfl
    simp only [validateAcceptedPathBase, PathHead.ofLookup, hpresent, if_true, Bool.and_eq_true,
      beq_iff_eq]
    exact and_congr_right fun _ => eq_comm

theorem pathBasesHold_iff :
    pathBasesHold heads bases = true ↔
      ∀ b ∈ bases, ∃ head, heads.get b.path = some head ∧
        validateAcceptedPathBase head b = true := by
  rw [pathBasesHold, all_eq_true]
  refine forall₂_congr fun b _ => ?_
  cases heads.get b.path <;> simp

/-- What an edit does to the rows of its own paths. -/
def HeadEffect (blobs : Table BlobID Blob) (heads heads' : Table Path PathHead) : FileEdit → Prop
  | .mkdir p => heads'.get p = some (.ofEntry (.directory .nil))
  | .delete p => heads'.get p = some .missing
  | .rename old p => ∃ head, heads.get old = some head ∧ head.present = true ∧
      heads'.get old = some .missing ∧ heads'.get p = some head
  | .copy old p => ∃ head, heads.get old = some head ∧ head.present = true ∧ heads'.get p = some head
  | .upsert p f => ∃ file, uploadedEntry blobs f = .ok file ∧ heads'.get p = some (.ofFile file)

variable {blobs : Table BlobID Blob} {heads' : Table Path PathHead} {e : FileEdit}

theorem HeadEffect.congr {t t' : Table Path PathHead} (h : HeadEffect blobs heads heads' e)
    (hbefore : ∀ p ∈ e.writes ++ e.reads, t.get p = heads.get p)
    (hafter : ∀ p ∈ e.writes, t'.get p = heads'.get p) : HeadEffect blobs t t' e := by
  cases e with
  | mkdir p | delete p => exact (hafter p (by simp [Edit.writes, Edit.path])).trans h
  | rename old p =>
    obtain ⟨head, hold, hpresent, hgone, hnew⟩ := h
    exact ⟨head, (hbefore old (by simp [Edit.writes])).trans hold, hpresent,
      (hafter old (by simp [Edit.writes])).trans hgone, (hafter p (by simp [Edit.writes])).trans hnew⟩
  | copy old p =>
    obtain ⟨head, hold, hpresent, hnew⟩ := h
    exact ⟨head, (hbefore old (by simp [Edit.reads])).trans hold, hpresent,
      (hafter p (by simp [Edit.writes, Edit.path])).trans hnew⟩
  | upsert p =>
    obtain ⟨file, hfile, hnew⟩ := h
    exact ⟨file, hfile, (hafter p (by simp [Edit.writes, Edit.path])).trans hnew⟩

theorem HeadEffect.isSome (h : HeadEffect blobs heads heads' e) (hp : p ∈ e.writes) :
    (heads'.get p).isSome := by
  cases e with
  | mkdir | delete =>
    rw [mem_singleton.mp hp]
    exact Option.isSome_of_eq_some h
  | rename =>
    obtain ⟨head, -, -, hgone, hnew⟩ := h
    rcases mem_cons.mp hp with rfl | hp
    · exact Option.isSome_of_eq_some hnew
    · rw [mem_singleton.mp hp]
      exact Option.isSome_of_eq_some hgone
  | copy =>
    obtain ⟨head, -, -, hnew⟩ := h
    rw [mem_singleton.mp hp]
    exact Option.isSome_of_eq_some hnew
  | upsert =>
    obtain ⟨file, -, hnew⟩ := h
    rw [mem_singleton.mp hp]
    exact Option.isSome_of_eq_some hnew

/-- One edit: the rows of other paths are as they were, and its own are as `HeadEffect` says. -/
theorem applyPathHeadEdit_ok (h : applyPathHeadEdit blobs heads e = .ok heads') :
    (∀ q, q ∉ e.writes → heads'.get q = heads.get q) ∧
      (e.writes.Nodup → HeadEffect blobs heads heads' e) := by
  cases e with
  | mkdir | delete =>
    cases h
    exact ⟨fun q hq => get_set_of_ne _ _ (by simpa [Edit.writes, Edit.path] using hq),
      fun _ => get_set_self _ _ _⟩
  | rename old p =>
    rw [applyPathHeadEdit] at h
    split at h
    · cases h
    · rename_i head hhead
      split_ifs at h with hpresent
      cases h
      constructor
      · intro q hq
        simp only [Edit.writes, mem_cons, not_mem_nil, or_false, not_or] at hq
        rw [get_set_of_ne _ _ hq.1, get_set_of_ne _ _ hq.2]
      · intro hnd
        have hne : old ≠ p := by
          rintro rfl
          simp [Edit.writes] at hnd
        exact ⟨head, hhead, hpresent, by rw [get_set_of_ne _ _ hne, get_set_self],
          get_set_self _ _ _⟩
  | copy old p =>
    rw [applyPathHeadEdit] at h
    split at h
    · cases h
    · rename_i head hhead
      split_ifs at h with hpresent
      cases h
      exact ⟨fun q hq => get_set_of_ne _ _ (by simpa [Edit.writes, Edit.path] using hq),
        fun _ => ⟨head, hhead, hpresent, get_set_self _ _ _⟩⟩
  | upsert =>
    obtain ⟨file, hfile, h⟩ := Except.bind_eq_ok.mp h
    cases h
    exact ⟨fun q hq => get_set_of_ne _ _ (by simpa [Edit.writes, Edit.path] using hq),
      fun _ => ⟨file, hfile, get_set_self _ _ _⟩⟩

variable {edits : List FileEdit} {q : Path}

/-- **The rows an admission leaves alone**: those of paths no edit changes. -/
theorem get_applyPathHeadEdits_of_notMem (h : applyPathHeadEdits blobs heads edits = .ok heads')
    (hq : q ∉ edits.flatMap Edit.writes) : heads'.get q = heads.get q := by
  refine Except.foldlM_induction (fun t => t.get q = heads.get q) ?_ rfl h
  intro t e he t' ht hstep
  have hqe : q ∉ e.writes := fun hmem => hq (mem_flatMap.mpr ⟨e, he, hmem⟩)
  exact ((applyPathHeadEdit_ok hstep).1 q hqe).trans ht

/-- **The rows an admission writes**, when no path is changed twice and none is read that is
changed. -/
theorem headEffect_applyPathHeadEdits (h : applyPathHeadEdits blobs heads edits = .ok heads')
    (hnd : (edits.flatMap Edit.writes).Nodup)
    (hreads : ∀ e ∈ edits, ∀ p ∈ e.reads, p ∉ edits.flatMap Edit.writes) :
    ∀ e ∈ edits, HeadEffect blobs heads heads' e := by
  intro e he
  obtain ⟨l₁, l₂, t, t', rfl, h₁, hstep, h₂⟩ := Except.foldlM_split h he
  rw [flatMap_append] at hnd
  obtain ⟨-, hrest, hdisj⟩ := nodup_append.mp hnd
  obtain ⟨hwrites, -, hdisj'⟩ := nodup_append.mp hrest
  refine ((applyPathHeadEdit_ok hstep).2 hwrites).congr ?_ ?_
  · -- the edits before change none of the edit's paths
    intro p hp
    refine (get_applyPathHeadEdits_of_notMem h₁ fun hmem => ?_).symm
    rcases mem_append.mp hp with hp | hp
    · exact hdisj p hmem p (mem_append_left _ hp) rfl
    · exact hreads e he p hp (by rw [flatMap_append]; exact mem_append_left _ hmem)
  · intro p hp
    exact get_applyPathHeadEdits_of_notMem h₂ fun hmem => hdisj' p hp p hmem rfl

/-! ## What publishing does to a row -/

/-- The paths an edit takes something away from or puts something at: publishing writes their rows
again, and those below a path where there is nothing. -/
def Edit.settled {φ : Type} : Edit φ → List Path
  | .delete p => [p]
  | .rename old p => [old, p]
  | .copy _ p => [p]
  | .mkdir _ | .upsert _ _ => []

/-- Why a path is refreshed, and that only settled paths are refreshed with all below. -/
def RefreshTarget (edits : List FileEdit) (p : Path) (deep : Bool) : Prop :=
  (∃ e ∈ edits, p ∈ e.settled) ∨
    deep = false ∧ (Edit.mkdir p ∈ edits ∨ ∃ e ∈ edits, ∃ w ∈ e.writes, p <+: w ∧ p ≠ w)

theorem mem_parents : q ∈ parents p ↔ q <+: p ∧ q ≠ [] ∧ q ≠ p := by
  simp [parents]

variable {seen : Table Path Bool}

theorem addPathHeadRefreshPath_forall {P : Path → Bool → Prop} {recursiveSelf includeSelf : Bool}
    (hseen : ∀ q d, seen.get q = some d → P q d)
    (hself : includeSelf = true → P p ((seen.get p).getD false || recursiveSelf))
    (hparents : ∀ q ∈ parents p, P q false) :
    ∀ q d, (addPathHeadRefreshPath seen p recursiveSelf includeSelf).get q = some d → P q d := by
  intro q d h
  rw [addPathHeadRefreshPath, get_foldl_insertNew (fun _ => false)] at h
  -- the table with the path itself, if it is included
  have hstart : ∀ d, (if includeSelf then seen.set p ((seen.get p).getD false || recursiveSelf)
      else seen).get q = some d → P q d := by
    intro d hd
    split_ifs at hd with hinclude
    · exact forall_set hseen (hself hinclude) q d hd
    · exact hseen q d hd
  generalize (if includeSelf then seen.set p ((seen.get p).getD false || recursiveSelf) else seen) =
    start at h hstart
  split_ifs at h with hq
  · cases hget : start.get q with
    | none =>
      rw [hget] at h
      cases h
      exact hparents q hq
    | some d' =>
      rw [hget] at h
      cases h
      exact hstart d' hget
  · exact hstart d h

theorem addRefreshTargets_forall (he : e ∈ edits)
    (hseen : ∀ q d, seen.get q = some d → RefreshTarget edits q d) :
    ∀ q d, (addRefreshTargets seen e).get q = some d → RefreshTarget edits q d := by
  have hparents : ∀ w ∈ e.writes, ∀ q ∈ parents w, RefreshTarget edits q false := by
    intro w hw q hq
    obtain ⟨hpre, -, hne⟩ := mem_parents.mp hq
    exact .inr ⟨rfl, .inr ⟨e, he, w, hw, hpre, hne⟩⟩
  have hsettled : ∀ p ∈ e.settled, ∀ d, RefreshTarget edits p d := fun p hp _ => .inl ⟨e, he, hp⟩
  cases e with
  | mkdir p =>
    refine addPathHeadRefreshPath_forall hseen (fun _ => ?_)
      (hparents p (by simp [Edit.writes, Edit.path]))
    rw [Bool.or_false]
    cases hget : seen.get p with
    | none => exact .inr ⟨rfl, .inl he⟩
    | some d => exact hseen p d hget
  | delete p | copy _ p =>
    exact addPathHeadRefreshPath_forall hseen (fun _ => hsettled p (by simp [Edit.settled]) _)
      (hparents p (by simp [Edit.writes, Edit.path]))
  | rename old p =>
    refine addPathHeadRefreshPath_forall ?_ (fun _ => hsettled p (by simp [Edit.settled]) _)
      (hparents p (by simp [Edit.writes]))
    exact addPathHeadRefreshPath_forall hseen (fun _ => hsettled old (by simp [Edit.settled]) _)
      (hparents old (by simp [Edit.writes]))
  | upsert p =>
    exact addPathHeadRefreshPath_forall hseen (fun h => by cases h)
      (hparents p (by simp [Edit.writes, Edit.path]))

theorem refreshTarget_of_mem {t : Path × Bool} (ht : t ∈ pathHeadRefreshTargetsForEdits edits) :
    RefreshTarget edits t.1 t.2 := by
  rw [pathHeadRefreshTargetsForEdits, mem_insertionSort] at ht
  refine List.foldlRecOn (motive := fun seen => ∀ q d, seen.get q = some d → RefreshTarget edits q d) edits
    addRefreshTargets (b := .empty) nofun (fun seen hseen e he => addRefreshTargets_forall he hseen) t.1 t.2 ?_
  exact (mem_rows_iff _ _ _).mp ht

/-- A row written from a root: that of a path refreshed, or of a path below one where there is
nothing. -/
def Refreshed (root : Node) (targets : List (Path × Bool)) (q : Path) (head : PathHead) : Prop :=
  head = .ofLookup (root.getEntry q) ∧
    ∃ t ∈ targets, q = t.1 ∨ root.getEntry t.1 = none ∧ t.1 <+: q

variable {head : PathHead} {targets : List (Path × Bool)} {root : Node}

theorem Refreshed.cons (h : Refreshed root targets q head) (t : Path × Bool) :
    Refreshed root (t :: targets) q head := by
  obtain ⟨hhead, t', ht', hq⟩ := h
  exact ⟨hhead, t', mem_cons_of_mem t ht', hq⟩

theorem getEntry_of_above_none (hp : root.getEntry p = none) (hq : p <+: q) :
    root.getEntry q = none := by
  by_cases hne : p = q
  · rw [← hne]
    exact hp
  · have hfolder : root.folderAt p = false := by rw [Node.folderAt, hp]
    exact Node.getEntry_below hfolder hq hne

variable {pending : List (Path × PathHead)}

theorem get_flushHeads (h : (applyPathHeadMutations heads (flushHeads pending)).get q = some head) :
    heads.get q = some head ∨ (q, head) ∈ pending := by
  cases pending with
  | nil => exact .inl h
  | cons x pending => exact get_foldl_set (x :: pending) heads h

theorem get_deleteMutation (h : (applyPathHeadMutation heads (.delete p)).get q = some head) :
    heads.get q = some head ∨ head = .missing ∧ p <+: q ∧
      (q = p ∨ ∃ old, heads.get q = some old) := by
  rcases get_set_cases h with ⟨rfl, rfl⟩ | ⟨-, h⟩
  · exact .inr ⟨rfl, prefix_rfl, .inl rfl⟩
  · rw [get_update, Option.map_eq_some_iff] at h
    obtain ⟨old, hold, hhead⟩ := h
    split_ifs at hhead with hbelow
    · exact .inr ⟨hhead.symm, contains_iff.mp hbelow, .inr ⟨old, hold⟩⟩
    · rw [← hhead]
      exact .inl hold

/-- The paths that have a row, will get one at the next flush, or are refreshed. -/
def KnownPath (heads : Table Path PathHead) (pending : List (Path × PathHead))
    (targets : List (Path × Bool)) (q : Path) : Prop :=
  (∃ head, heads.get q = some head) ∨ (∃ head, (q, head) ∈ pending) ∨ ∃ t ∈ targets, q = t.1

variable {mutations : List PathHeadMutation}

/-- **The rows a publish writes** are those of the root it publishes. The paths that would be
refreshed with all below them are not folders. -/
theorem get_refreshFrom (hplain : ∀ t ∈ targets, splitPath t.1 = t.1)
    (hfile : ∀ t ∈ targets, t.2 = true → root.folderAt t.1 = false)
    (h : refreshFrom root pending targets = some mutations)
    (hq : (applyPathHeadMutations heads mutations).get q = some head) :
    KnownPath heads pending targets q ∧
      (heads.get q = some head ∨ (q, head) ∈ pending ∨ Refreshed root targets q head) := by
  induction targets generalizing pending mutations heads with
  | nil =>
    cases h
    rcases get_flushHeads hq with hold | hnew
    · exact ⟨.inl ⟨head, hold⟩, .inl hold⟩
    · exact ⟨.inr (.inl ⟨head, hnew⟩), .inr (.inl hnew)⟩
  | cons t targets ih =>
    obtain ⟨p, deep⟩ := t
    have hp : splitPath p = p := hplain (p, deep) mem_cons_self
    have hplain' : ∀ t ∈ targets, splitPath t.1 = t.1 := fun t ht =>
      hplain t (mem_cons_of_mem _ ht)
    have hfile' : ∀ t ∈ targets, t.2 = true → root.folderAt t.1 = false := fun t ht =>
      hfile t (mem_cons_of_mem _ ht)
    have htarget : q = p → KnownPath heads pending ((p, deep) :: targets) q := fun hqp =>
      .inr (.inr ⟨(p, deep), mem_cons_self, hqp⟩)
    have hlater : (∃ t ∈ targets, q = t.1) → KnownPath heads pending ((p, deep) :: targets) q := by
      rintro ⟨t, ht, hqt⟩
      exact .inr (.inr ⟨t, mem_cons_of_mem _ ht, hqt⟩)
    -- a row kept for the next flush is that of the path
    have hkeep : ∀ e, root.getEntry p = some e →
        refreshFrom root (pending ++ [(p, .ofEntry e)]) targets = some mutations →
        KnownPath heads pending ((p, deep) :: targets) q ∧ (heads.get q = some head ∨
          (q, head) ∈ pending ∨ Refreshed root ((p, deep) :: targets) q head) := by
      intro e he hrest
      obtain ⟨hknown, hrow⟩ := ih hplain' hfile' hrest hq
      constructor
      · rcases hknown with hold | ⟨head', hmem⟩ | hmem
        · exact .inl hold
        · rcases mem_append.mp hmem with hmem | hmem
          · exact .inr (.inl ⟨head', hmem⟩)
          · exact htarget (Prod.mk.inj (mem_singleton.mp hmem)).1
        · exact hlater hmem
      · rcases hrow with hold | hmem | hfresh
        · exact .inl hold
        · rcases mem_append.mp hmem with hmem | hmem
          · exact .inr (.inl hmem)
          · obtain ⟨hqp, hhead⟩ := Prod.mk.inj (mem_singleton.mp hmem)
            refine .inr (.inr ⟨?_, (p, deep), mem_cons_self, .inl hqp⟩)
            rw [hqp, he, hhead]
            rfl
        · exact .inr (.inr (hfresh.cons _))
    rw [refreshFrom, hp] at h
    split at h
    · rename_i hnone
      rw [Option.bind_eq_bind, Option.bind_eq_some_iff] at h
      obtain ⟨more, hmore, hcons⟩ := h
      cases hcons
      rw [applyPathHeadMutations, foldl_append] at hq
      -- a row after the flush was there before it or is one of those flushed
      have hflushed : ∀ head', (applyPathHeadMutations heads (flushHeads pending)).get q = some head' →
          KnownPath heads pending ((p, deep) :: targets) q := fun head' hget =>
        (get_flushHeads hget).elim (fun hold => .inl ⟨head', hold⟩)
          (fun hmem => .inr (.inl ⟨head', hmem⟩))
      obtain ⟨hknown, hrow⟩ := ih hplain' hfile' hmore hq
      constructor
      · rcases hknown with ⟨head', hget⟩ | ⟨head', hmem⟩ | hmem
        · rcases get_deleteMutation hget with hget | ⟨-, -, hqp | ⟨old, hget⟩⟩
          · exact hflushed head' hget
          · exact htarget hqp
          · exact hflushed old hget
        · cases hmem
        · exact hlater hmem
      · rcases hrow with hget | hmem | hfresh
        · rcases get_deleteMutation hget with hget | ⟨hmissing, hbelow, -⟩
          · exact (get_flushHeads hget).imp_right .inl
          · refine .inr (.inr ⟨?_, (p, deep), mem_cons_self, .inr ⟨hnone, hbelow⟩⟩)
            rw [getEntry_of_above_none hnone hbelow, hmissing]
            rfl
        · cases hmem
        · exact .inr (.inr (hfresh.cons _))
    · rename_i f hf
      exact hkeep _ hf h
    · rename_i c hc
      split_ifs at h with hdeep
      · have hfolder := hfile (p, deep) mem_cons_self hdeep
        rw [Node.folderAt_iff.mpr ⟨c, hc⟩] at hfolder
        cases hfolder
      · exact hkeep _ hc h

theorem isSome_foldl_set {l : List (Path × PathHead)} (h : (heads.get q).isSome) :
    ((l.foldl (fun t x => t.set x.1 x.2) heads).get q).isSome := by
  induction l generalizing heads with
  | nil => exact h
  | cons x l ih =>
    refine ih ?_
    rw [get_set]
    split_ifs
    · rfl
    · exact h

theorem isSome_applyPathHeadMutations (h : (heads.get q).isSome) :
    ((applyPathHeadMutations heads mutations).get q).isSome := by
  induction mutations generalizing heads with
  | nil => exact h
  | cons m mutations ih =>
    refine ih ?_
    cases m with
    | heads => exact isSome_foldl_set h
    | delete =>
      rw [applyPathHeadMutation, get_set]
      split_ifs
      · rfl
      · rw [get_update, Option.isSome_map]
        exact h

end GitSlice
