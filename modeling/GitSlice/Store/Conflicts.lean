import GitSlice.Store.NoLostUpdate

/-! # Prefix conflicts
Two patchsets built on one tree that change overlapping paths are in conflict, and only the first of
them should be admitted. Admission compares the rows of the changed paths themselves, so a conflict
of a folder with a file below it is not seen (`overlap_folderDeleted`). For a base tree, this module
proves that conflicts are refused while the patchsets built on it change single files in its
folders, and no row of a path they changed returns to what the tree has: then the row of every path
that an admitted one changed disagrees with the tree (`ConflictSound.guarded`), and the next one
built on the tree finds it so. -/

namespace GitSlice

open Node List

/-- No two admitted patchsets that were built on the tree change overlapping paths. -/
def WritesApart (t : Node) (s : State) : Prop :=
  ∀ r ∈ s.pendingPublish, ∀ r' ∈ s.pendingPublish, r.changeset ≠ r'.changeset →
    ∀ ps ∈ s.patchsets.get r.patchset, ∀ ps' ∈ s.patchsets.get r'.patchset,
      ps.baseTree = t → ps'.baseTree = t →
        ∀ p ∈ ps.changedPaths, ∀ q ∈ ps'.changedPaths, ¬ Overlaps p q

/-- A row agrees with what a base tree has at the path. -/
def PathHead.Agrees (head : PathHead) (t : Node) (p : Path) : Prop :=
  validateAcceptedPathBase head (pathBase t p) = true

instance (head : PathHead) (t : Node) (p : Path) : Decidable (head.Agrees t p) :=
  inferInstanceAs (Decidable (validateAcceptedPathBase head (pathBase t p) = true))

/-- A refresh writes, at a path, what a base tree has there. -/
def PathHeadMutation.Restores (t : Node) (p : Path) : PathHeadMutation → Prop
  | .heads new => ∃ x ∈ new, x.1 = p ∧ x.2.Agrees t p
  | .delete q => q <+: p ∧ PathHead.missing.Agrees t p

instance (t : Node) (p : Path) (m : PathHeadMutation) : Decidable (m.Restores t p) := by
  unfold PathHeadMutation.Restores
  split <;> infer_instance

/-! ## Edits of single files -/

/-- The edits are of **single files** of the tree: they change and copy no folder, and nothing that
lies below a file or overlaps another path they name. -/
structure SingleFiles (t : Node) (edits : List FileEdit) : Prop where
  tidy : ∀ e ∈ edits, ∀ p ∈ e.writes ++ e.reads, Tidy p
  files : ∀ e ∈ edits, ∀ p ∈ e.writes ++ e.reads, t.folderAt p = false
  apart : Apart (edits.flatMap Edit.writes)
  sources : ∀ e ∈ edits, ∀ old ∈ e.reads, ∀ p ∈ edits.flatMap Edit.writes, ¬ Overlaps p old
  above : ∀ p ∈ edits.flatMap Edit.writes, ∀ q, q <+: p → q ≠ p → t.fileAt q = none

variable {t : Node}

theorem singleFiles_iff {edits : List FileEdit} : SingleFiles t edits ↔
    (∀ e ∈ edits, ∀ p ∈ e.writes ++ e.reads, Tidy p ∧ t.folderAt p = false) ∧
    Apart (edits.flatMap Edit.writes) ∧
    (∀ e ∈ edits, ∀ old ∈ e.reads, ∀ p ∈ edits.flatMap Edit.writes, ¬ Overlaps p old) ∧
    ∀ p ∈ edits.flatMap Edit.writes, ∀ q ∈ p.inits, q ≠ p → t.fileAt q = none := by
  constructor
  · intro h
    exact ⟨fun e he p hp => ⟨h.tidy e he p hp, h.files e he p hp⟩, h.apart, h.sources,
      fun p hp q hq => h.above p hp q ((mem_inits q p).mp hq)⟩
  · rintro ⟨hpaths, hapart, hsources, habove⟩
    exact ⟨fun e he p hp => (hpaths e he p hp).1, fun e he p hp => (hpaths e he p hp).2, hapart,
      hsources, fun p hp q hq => habove p hp q ((mem_inits q p).mpr hq)⟩

instance (t : Node) (edits : List FileEdit) : Decidable (SingleFiles t edits) :=
  decidable_of_iff _ singleFiles_iff.symm

section SingleFiles

variable {blobs : Table BlobID Blob} {edits : List FileEdit} {tes : List TreeEdit}

theorem SingleFiles.nodup (h : SingleFiles t edits) : (edits.flatMap Edit.writes).Nodup := by
  refine h.apart.imp fun {p q} hover heq => ?_
  rw [heq] at hover
  exact hover (overlaps_self q)

theorem SingleFiles.reads (h : SingleFiles t edits) :
    ∀ e ∈ edits, ∀ p ∈ e.reads, p ∉ edits.flatMap Edit.writes := fun e he p hp hmem =>
  h.sources e he p hp p hmem (overlaps_self p)

theorem SingleFiles.separate (h : SingleFiles t edits)
    (htes : treeEditsFromPatchset blobs edits = .ok tes) : Separate t tes := by
  have hparts := writtenParts_eq htes h.tidy
  refine ⟨hparts ▸ h.apart, ?_, ?_, hparts ▸ h.above⟩
  · -- the root is a folder
    rintro p hp rfl
    rw [hparts] at hp
    obtain ⟨e, he, hpe⟩ := mem_flatMap.mp hp
    have hfile := h.files e he [] (mem_append_left _ hpe)
    cases hfile
  · intro te hte old hold p hp
    obtain ⟨e, he, hedit⟩ := Except.exists_of_mapM htes hte
    rw [(treeEdit_paths hedit).2.1] at hold
    rw [(h.tidy e he old (mem_append_right _ hold)).plain]
    exact h.sources e he old hold p (hparts ▸ hp)

end SingleFiles

variable {p q : Path}

theorem prefix_dropLast (h : p <+: q) (hne : p ≠ q) : p <+: q.dropLast := by
  obtain ⟨r, rfl⟩ := h
  have hr : r ≠ [] := by
    rintro rfl
    exact hne (append_nil p).symm
  rw [dropLast_append_of_ne_nil hr]
  exact prefix_append p _

theorem folderAt_of_inFolder (hq : t.folderAt q.dropLast = true) (h : p <+: q) (hne : p ≠ q) :
    t.folderAt p = true := by
  have habove := prefix_dropLast h hne
  by_cases heq : p = q.dropLast
  · rw [heq]
    exact hq
  · obtain ⟨c, hc⟩ := Node.folderAt_iff.mp hq
    exact Node.folderAt_above habove heq hc

theorem eq_of_overlaps (hp : t.folderAt p = false) (hq : t.folderAt q = false)
    (hp' : t.folderAt p.dropLast = true) (hq' : t.folderAt q.dropLast = true) (h : Overlaps p q) :
    p = q := by
  by_contra hne
  rcases h with h | h
  · rw [folderAt_of_inFolder hq' h hne] at hp
    cases hp
  · rw [folderAt_of_inFolder hp' h (Ne.symm hne)] at hq
    cases hq

/-- The paths a patchset changes are in folders of its base tree. -/
def Patchset.InFolders (ps : Patchset) : Prop :=
  ∀ p ∈ ps.changedPaths, ps.baseTree.folderAt p.dropLast = true

instance (ps : Patchset) : Decidable ps.InFolders :=
  inferInstanceAs (Decidable (∀ p ∈ ps.changedPaths, ps.baseTree.folderAt p.dropLast = true))

/-! ## Careful steps -/

/-- The patchset leaves at a path something else than the tree has. -/
def LeavesNew (t : Node) (ps : Patchset) (p : Path) : Prop := ¬ (headAt ps.resultTree p).Agrees t p

instance (t : Node) (ps : Patchset) (p : Path) : Decidable (LeavesNew t ps p) :=
  inferInstanceAs (Decidable (¬ (headAt ps.resultTree p).Agrees t p))

/-- The patchset is **careful** with an admitted one that was built on the tree. -/
def CarefulWith (t : Node) (ps ps' : Patchset) : Prop :=
  (ps.baseTree = t → ps.InFolders ∧ ps'.InFolders) ∧
    ∀ p ∈ ps.changedPaths, p ∈ ps'.changedPaths →
      SingleFiles ps.baseTree ps.fileEdits ∧ LeavesNew t ps p

instance (t : Node) (ps ps' : Patchset) : Decidable (CarefulWith t ps ps') := by
  unfold CarefulWith
  infer_instance

/-- The patchset can be admitted with care: built on the tree, it changes single files and really
changes them, and it is careful with those built on the tree that are admitted. -/
def CarefulPatchset (t : Node) (s : State) (ps : Patchset) : Prop :=
  (ps.baseTree = t → SingleFiles t ps.fileEdits ∧ ∀ p ∈ ps.changedPaths, LeavesNew t ps p) ∧
    ∀ r ∈ s.pendingPublish, ∀ ps' ∈ s.patchsets.get r.patchset, ps'.baseTree = t →
      CarefulWith t ps ps'

instance (t : Node) (s : State) (ps : Patchset) : Decidable (CarefulPatchset t s ps) := by
  unfold CarefulPatchset
  infer_instance

/-- A **careful** step, for a base tree. -/
def Careful (t : Node) (s : State) : Action → Prop
  -- a patchset whose bases agree with the rows can be admitted with care
  | .submit _ req => ∀ c ∈ s.changesets.get req.changeset, ∀ id ∈ c.currentPatchset,
      ∀ ps ∈ s.patchsets.get id, ∀ heads ∈ (acceptedHeads s ps.pathBases).toOption,
        pathBasesHold heads ps.pathBases = true → CarefulPatchset t s ps
  -- the refresh of a batch does not restore what the tree has at a path changed
  | .finalize q _ =>
    match s.publishers q with
    | .built _ build => ∀ e ∈ build.entries, ∀ m ∈ e.mutations, ∀ r ∈ s.pendingPublish,
        ∀ ps ∈ s.patchsets.get r.patchset, ps.baseTree = t → ∀ p ∈ ps.changedPaths, ¬ m.Restores t p
    | _ => True
  | _ => True

instance (t : Node) (s : State) (a : Action) : Decidable (Careful t s a) := by
  rcases a with _ | _ <;> dsimp only [Careful]
  case finalize q _ =>
    generalize s.publishers q = stage
    rcases stage with _ | _ <;> infer_instance
  all_goals infer_instance

/-! ## What an admission leaves -/

/-- A patchset as `AddPatchset` builds it. -/
structure PatchsetBuilt (blobs : Table BlobID Blob) (ps : Patchset) : Prop where
  changed : ps.changedPaths = sortedPaths ps.writes
  bases : ps.pathBases = (ps.changedPaths ++ readOnlyPaths ps.fileEdits).map (pathBase ps.baseTree)
  result : ∃ tes, treeEditsFromPatchset blobs ps.fileEdits = .ok tes ∧
    applyEditSet ps.baseTree tes = .ok ps.resultTree

variable {ps : Patchset} {blobs : Table BlobID Blob}
theorem PatchsetBuilt.mono {blobs' : Table BlobID Blob} (hb : blobs.Extends blobs')
    (h : PatchsetBuilt blobs ps) : PatchsetBuilt blobs' ps := by
  obtain ⟨tes, htes, happly⟩ := h.result
  exact ⟨h.changed, h.bases, tes, treeEditsFromPatchset_extends hb htes, happly⟩

/-- Two rows say the same about the entry. -/
def SameEntry (head head' : PathHead) : Prop :=
  head.present = head'.present ∧ head.fingerprint = head'.fingerprint

variable {head : PathHead}

theorem SameEntry.agrees {head' : PathHead} (h : SameEntry head head') :
    head.Agrees t p ↔ head'.Agrees t p := by
  obtain ⟨hpresent, hfingerprint⟩ := h
  simp only [PathHead.Agrees, validateAcceptedPathBase, hpresent, hfingerprint]

theorem sameEntry_of_agrees (hpresent : head.present = true) (h : head.Agrees t p) :
    SameEntry head (headAt t p) := by
  rw [PathHead.Agrees, validateAcceptedPathBase, if_pos hpresent, Bool.and_eq_true, beq_iff_eq] at h
  exact ⟨hpresent.trans h.1.symm, h.2⟩

section

variable (h : PatchsetBuilt blobs ps)
include h

theorem PatchsetBuilt.mem_changed : p ∈ ps.changedPaths ↔ p ∈ ps.writes := by
  rw [h.changed, mem_sortedPaths]

theorem PatchsetBuilt.base_mem {e : FileEdit} (he : e ∈ ps.fileEdits)
    (hp : p ∈ e.writes ++ e.reads) :
    pathBase ps.baseTree p ∈ ps.pathBases := by
  rw [h.bases, h.changed]
  exact mem_map_of_mem (mem_basePaths he hp)

/-- **After an admission**, the row of every path that a patchset of single files changes says what
its result tree has. -/
theorem PatchsetBuilt.sameEntry (hsingle : SingleFiles ps.baseTree ps.fileEdits)
    {heads heads' : Table Path PathHead} (hhold : pathBasesHold heads ps.pathBases = true)
    (hedits : applyPathHeadEdits blobs heads ps.fileEdits = .ok heads') (hp : p ∈ ps.writes) :
    ∃ head, heads'.get p = some head ∧ SameEntry head (headAt ps.resultTree p) := by
  obtain ⟨e, he, hpe⟩ := mem_flatMap.mp hp
  obtain ⟨tes, htes, happly⟩ := h.result
  obtain ⟨te, hte, hedit⟩ := exists_treeEdit htes he
  have htree := applyEditSet_effect happly (hsingle.separate htes) te hte
  have hheads := headEffect_applyPathHeadEdits hedits hsingle.nodup hsingle.reads e he
  have hplain : ∀ q ∈ e.writes ++ e.reads, splitPath q = q :=
    fun q hq => (hsingle.tidy e he q hq).plain
  -- the row of a source agrees with the base, so it says what the base tree has there
  have hsource : ∀ old ∈ e.writes ++ e.reads, ∀ head, heads.get old = some head →
      head.present = true → SameEntry head (headAt ps.baseTree old) := by
    intro old hold head hhead hpresent
    obtain ⟨head', hhead', hvalid⟩ := pathBasesHold_iff.mp hhold _ (h.base_mem he hold)
    have heq : head' = head := Option.some.inj (hhead'.symm.trans hhead)
    rw [heq] at hvalid
    exact sameEntry_of_agrees hpresent hvalid
  cases e with
  | upsert q =>
    obtain ⟨file, hfile, hte'⟩ := Except.bind_eq_ok.mp hedit
    cases hte'
    obtain rfl : q = p := (mem_singleton.mp hpe).symm
    obtain ⟨file', huploaded, hnew⟩ := hheads
    rw [hfile] at huploaded
    cases huploaded
    have hentry : ps.resultTree.getEntry (splitPath q) = some (.file file) := htree
    refine ⟨_, hnew, ?_⟩
    rw [headAt, hentry]
    exact ⟨rfl, rfl⟩
  | delete q =>
    cases hedit
    obtain rfl : q = p := (mem_singleton.mp hpe).symm
    have hnone := htree []
    rw [append_nil] at hnone
    refine ⟨_, hheads, ?_⟩
    rw [headAt, hnone]
    exact ⟨rfl, rfl⟩
  | mkdir q =>
    cases hedit
    obtain rfl : q = p := (mem_singleton.mp hpe).symm
    have hq : splitPath q = q := hplain q (by simp [Edit.writes, Edit.path])
    have hfile := hsingle.files _ he q (by simp [Edit.writes, Edit.path])
    have hnew : (∃ c, ps.baseTree.getEntry (splitPath q) = some (.directory c) ∧
        ps.resultTree.getEntry (splitPath q) = some (.directory c)) ∨
        ps.baseTree.getEntry (splitPath q) = none ∧
          ps.resultTree.getEntry (splitPath q) = some (.directory .nil) := htree
    rcases hnew with ⟨c, hc, -⟩ | ⟨-, hdir⟩
    · rw [hq] at hc
      rw [Node.folderAt_iff.mpr ⟨c, hc⟩] at hfile
      cases hfile
    · refine ⟨_, hheads, ?_⟩
      rw [headAt, hdir]
      exact ⟨rfl, rfl⟩
  | rename old =>
    cases hedit
    obtain ⟨entry, hentry, hnew, hgone⟩ := htree
    obtain ⟨head, hhead, hpresent, hmissing, hmoved⟩ := hheads
    rcases mem_cons.mp hpe with rfl | hpe
    · have hfile := hnew []
      rw [append_nil] at hfile
      have hsame := hsource old (by simp [Edit.writes]) head hhead hpresent
      rw [headAt, hentry] at hsame
      refine ⟨head, hmoved, ?_⟩
      rw [headAt, hfile]
      cases entry <;> exact hsame
    · obtain rfl : old = p := (mem_singleton.mp hpe).symm
      have hnone := hgone []
      rw [append_nil] at hnone
      refine ⟨_, hmissing, ?_⟩
      rw [headAt, hnone]
      exact ⟨rfl, rfl⟩
  | copy old q =>
    cases hedit
    obtain rfl : q = p := (mem_singleton.mp hpe).symm
    obtain ⟨entry, hentry, hnew⟩ := htree
    obtain ⟨head, hhead, hpresent, hcopied⟩ := hheads
    have hfile := hnew []
    rw [append_nil] at hfile
    have hsame := hsource old (by simp [Edit.reads]) head hhead hpresent
    rw [headAt, hentry] at hsame
    refine ⟨head, hcopied, ?_⟩
    rw [headAt, hfile]
    cases entry <;> exact hsame

end

/-! ## The invariant -/

/-- What a patchset that is admitted and was built on the tree leaves in `path_heads`: it changed
single files, and their rows disagree with the tree. -/
def Guarded (t : Node) (heads : Table Path PathHead) (ps : Patchset) : Prop :=
  SingleFiles t ps.fileEdits ∧ ∀ p ∈ ps.changedPaths, ∃ head, heads.get p = some head ∧
    ¬ head.Agrees t p

/-- The invariant of careful runs. -/
structure ConflictSound (t : Node) (s : State) : Prop where
  /-- Patchsets are as `AddPatchset` builds them. -/
  built : ∀ id ps, s.patchsets.get id = some ps → PatchsetBuilt s.blobs ps
  /-- The rows of the paths that admitted patchsets changed disagree with the tree they were built
  on. -/
  guarded : ∀ r ∈ s.queue, ∃ ps, s.patchsets.get r.patchset = some ps ∧
    (ps.baseTree = t → Guarded t s.pathHeads ps)
  apart : ∀ r ∈ s.queue, ∀ r' ∈ s.queue, r.changeset ≠ r'.changeset →
    ∀ ps ps', s.patchsets.get r.patchset = some ps → s.patchsets.get r'.patchset = some ps' →
      ps.baseTree = t → ps'.baseTree = t →
        ∀ p ∈ ps.changedPaths, ∀ q ∈ ps'.changedPaths, ¬ Overlaps p q

section Invariant

variable {s s' : State} {r : QueueRow}

theorem exists_row_of_claimed_eq (h : s'.queue.map QueueRow.claimed = s.queue.map QueueRow.claimed)
    (hr : r ∈ s'.queue) :
    ∃ r₀ ∈ s.queue, r₀.changeset = r.changeset ∧ r₀.patchset = r.patchset := by
  have hmem : r.claimed ∈ s.queue.map QueueRow.claimed := by
    rw [← h]
    exact mem_map_of_mem hr
  obtain ⟨r₀, hr₀, heq⟩ := mem_map.mp hmem
  exact ⟨r₀, hr₀, congrArg ClaimedRow.changeset heq, congrArg ClaimedRow.patchset heq⟩

section

variable (h : ConflictSound t s) (hps : s.patchsets.Extends s'.patchsets) (hb : s.blobs.Extends s'.blobs)
  (hbuilt : ∀ id ps, s'.patchsets.get id = some ps →
    s.patchsets.get id = some ps ∨ PatchsetBuilt s'.blobs ps)
include h hps hb hbuilt

/-- A step that keeps the rows of the queue, and the disagreement of the rows of `path_heads`. -/
theorem ConflictSound.of_kept (hq : s'.queue.map QueueRow.claimed = s.queue.map QueueRow.claimed)
    (hheads : ∀ r ∈ s.queue, ∀ ps, s.patchsets.get r.patchset = some ps → ps.baseTree = t →
      Guarded t s.pathHeads ps → Guarded t s'.pathHeads ps) : ConflictSound t s' := by
  -- the patchset of a row is the one it was
  have hsame : ∀ r₀ ∈ s.queue, ∀ ps, s'.patchsets.get r₀.patchset = some ps →
      s.patchsets.get r₀.patchset = some ps := by
    intro r₀ hr₀ ps hget
    obtain ⟨ps₀, hps₀, -⟩ := h.guarded r₀ hr₀
    have heq : ps₀ = ps := Option.some.inj ((hps _ _ hps₀).symm.trans hget)
    rw [← heq]
    exact hps₀
  refine ⟨?_, ?_, ?_⟩
  · intro id ps hget
    exact (hbuilt id ps hget).elim (fun hold => (h.built id ps hold).mono hb) fun hnew => hnew
  · intro r hr
    obtain ⟨r₀, hr₀, -, hpatchset⟩ := exists_row_of_claimed_eq hq hr
    obtain ⟨ps, hget, hguard⟩ := h.guarded r₀ hr₀
    exact ⟨ps, hpatchset ▸ hps _ _ hget, fun htree => hheads r₀ hr₀ ps hget htree (hguard htree)⟩
  · intro r hr r' hr' hne ps ps' hget hget'
    obtain ⟨r₀, hr₀, hcs, hpatchset⟩ := exists_row_of_claimed_eq hq hr
    obtain ⟨r₀', hr₀', hcs', hpatchset'⟩ := exists_row_of_claimed_eq hq hr'
    rw [← hpatchset] at hget
    rw [← hpatchset'] at hget'
    exact h.apart r₀ hr₀ r₀' hr₀' (by rw [hcs, hcs']; exact hne) ps ps' (hsame r₀ hr₀ ps hget)
      (hsame r₀' hr₀' ps' hget')

/-- A step that keeps the rows of the queue and of `path_heads`. -/
theorem ConflictSound.of_extends (hq : s'.queue = s.queue)
    (hheads : s.pathHeads.Extends s'.pathHeads) :
    ConflictSound t s' := by
  refine h.of_kept hps hb hbuilt (by rw [hq]) fun _ _ ps _ _ hguard => ⟨hguard.1, fun p hp => ?_⟩
  obtain ⟨head, hhead, hdis⟩ := hguard.2 p hp
  exact ⟨head, hheads p head hhead, hdis⟩

end

theorem conflictSound_start (t root : Node) : ConflictSound t (State.start root) where
  built := fun _ _ h => by cases h
  guarded := by simp [State.queue, State.start]
  apart := by simp [State.queue, State.start]

/-! ## The step that admits -/

variable {heads : Table Path PathHead}

/-- A path that an admitted patchset on the tree changed is not changed by the next one built on it:
its base would have to agree with a row that disagrees. -/
theorem ConflictSound.fresh (h : ConflictSound t s) (hbuilt : PatchsetBuilt s.blobs ps)
    (htree : ps.baseTree = t) (hheads : acceptedHeads s ps.pathBases = .ok heads)
    (hhold : pathBasesHold heads ps.pathBases = true) (hr : r ∈ s.queue) {ps' : Patchset}
    (hps' : s.patchsets.get r.patchset = some ps') (htree' : ps'.baseTree = t) :
    ∀ p ∈ ps'.changedPaths, p ∉ ps.changedPaths := by
  intro p hp hmem
  obtain ⟨ps₀, hps₀, hguard⟩ := h.guarded r hr
  rw [hps'] at hps₀
  cases hps₀
  obtain ⟨head, hhead, hdis⟩ := (hguard htree').2 p hp
  obtain ⟨e, he, hpe⟩ := mem_flatMap.mp (hbuilt.mem_changed.mp hmem)
  obtain ⟨head', hhead', hvalid⟩ :=
    pathBasesHold_iff.mp hhold _ (hbuilt.base_mem he (mem_append_left _ hpe))
  have heq : head = head' :=
    Option.some.inj ((extends_acceptedHeads hheads p head hhead).symm.trans hhead')
  rw [heq, ← htree] at hdis
  exact hdis hvalid

variable {now : Time}

theorem ConflictSound.admits (h : ConflictSound t s) {req : SubmitRequest} {a : Admission}
    (ha : Admits s req a ps) (hcareful : Careful t s (.submit now req)) :
    ConflictSound t (admitted s now req.changeset a) := by
  obtain ⟨hc, -, -, -, -, hcurrent, hps, -⟩ := openForSubmit_ok ha.opened
  obtain ⟨heads, hbases, hedits⟩ := ha.heads
  obtain ⟨hheads, hhold⟩ := requirePathBases_ok hbases
  replace hedits := headsAfterEdits_ok hedits
  have hbuilt := h.built _ ps hps
  obtain ⟨hown, hothers⟩ := hcareful _ hc _ hcurrent ps hps heads (Except.toOption_eq_some.mpr hheads) hhold
  have hapart : ps.baseTree = t → ∀ r ∈ s.queue, ∀ ps', s.patchsets.get r.patchset = some ps' →
      ps'.baseTree = t → ∀ p ∈ ps.changedPaths, ∀ q ∈ ps'.changedPaths, ¬ Overlaps p q := by
    intro htree r hr ps' hps' htree' p hp q hq hover
    obtain ⟨ps₀, hps₀, hguard⟩ := h.guarded r hr
    rw [hps'] at hps₀
    cases hps₀
    obtain ⟨e, he, hpe⟩ := mem_flatMap.mp (hbuilt.mem_changed.mp hp)
    obtain ⟨e', he', hqe⟩ := mem_flatMap.mp ((h.built _ ps' hps').mem_changed.mp hq)
    obtain ⟨row, hrow, rfl⟩ := mem_queue.mp hr
    obtain ⟨hfolders, hfolders'⟩ := (hothers row hrow ps' hps' htree').1 htree
    -- both are files in folders of the tree
    have heq : p = q := eq_of_overlaps ((hown htree).1.files e he p (mem_append_left _ hpe))
      ((hguard htree').1.files e' he' q (mem_append_left _ hqe)) (htree ▸ hfolders p hp)
      (htree' ▸ hfolders' q hq) hover
    exact h.fresh hbuilt htree hheads hhold hr hps' htree' q hq (heq ▸ hp)
  refine ⟨h.built, ?_, ?_⟩
  · intro r hr
    rw [mem_queue_admitted] at hr
    rcases hr with hr | rfl
    · obtain ⟨ps', hps', hguard⟩ := h.guarded r hr
      refine ⟨ps', hps', fun htree' => ⟨(hguard htree').1, fun p hp => ?_⟩⟩
      by_cases hw : p ∈ ps.writes
      · obtain ⟨row, hrow, rfl⟩ := mem_queue.mp hr
        obtain ⟨hsingle, hnew⟩ :=
          (hothers row hrow ps' hps' htree').2 p (hbuilt.mem_changed.mpr hw) hp
        obtain ⟨head, hhead, hsame⟩ := hbuilt.sameEntry hsingle hhold hedits hw
        exact ⟨head, hhead, fun hagrees => hnew (hsame.agrees.mp hagrees)⟩
      · obtain ⟨head, hhead, hdis⟩ := (hguard htree').2 p hp
        refine ⟨head, ?_, hdis⟩
        show a.heads.get p = some head
        rw [get_applyPathHeadEdits_of_notMem hedits hw]
        exact extends_acceptedHeads hheads p head hhead
    · refine ⟨ps, hps, fun htree => ⟨(hown htree).1, fun p hp => ?_⟩⟩
      obtain ⟨head, hhead, hsame⟩ := hbuilt.sameEntry (htree ▸ (hown htree).1) hhold hedits
        (hbuilt.mem_changed.mp hp)
      exact ⟨head, hhead, fun hagrees => (hown htree).2 p hp (hsame.agrees.mp hagrees)⟩
  · intro r hr r' hr' hne ps₁ ps₂ hps₁ hps₂ htree₁ htree₂
    rw [mem_queue_admitted] at hr hr'
    rcases hr with hr | rfl
    · rcases hr' with hr' | rfl
      · exact h.apart r hr r' hr' hne ps₁ ps₂ hps₁ hps₂ htree₁ htree₂
      · have heq : ps = ps₂ := Option.some.inj (hps.symm.trans hps₂)
        subst heq
        intro p hp q hq hover
        exact hapart htree₂ r hr ps₁ hps₁ htree₁ q hq p hp hover.symm
    · rcases hr' with hr' | rfl
      · have heq : ps = ps₁ := Option.some.inj (hps.symm.trans hps₁)
        subst heq
        exact hapart htree₁ r' hr' ps₂ hps₂ htree₂
      · exact absurd rfl hne

/-! ## The step that publishes -/

theorem agrees_applyPathHeadMutations {mutations : List PathHeadMutation}
    (hnot : ∀ m ∈ mutations, ¬ m.Restores t q) (hhead : heads.get q = some head)
    (hdis : ¬ head.Agrees t q) :
    ∃ head', (applyPathHeadMutations heads mutations).get q = some head' ∧ ¬ head'.Agrees t q := by
  induction mutations generalizing heads head with
  | nil => exact ⟨head, hhead, hdis⟩
  | cons m mutations ih =>
    have hm : ∃ head', (applyPathHeadMutation heads m).get q = some head' ∧ ¬ head'.Agrees t q := by
      have hsome : ((applyPathHeadMutations heads [m]).get q).isSome :=
        isSome_applyPathHeadMutations (Option.isSome_of_eq_some hhead)
      obtain ⟨head', hhead'⟩ := Option.isSome_iff_exists.mp hsome
      refine ⟨head', hhead', fun hagrees => ?_⟩
      have hrestores := hnot m mem_cons_self
      cases m with
      | heads new =>
        rcases Table.get_foldl_set new heads hhead' with hold | hmem
        · rw [hhead] at hold
          cases hold
          exact hdis hagrees
        · exact hrestores ⟨(q, head'), hmem, rfl, hagrees⟩
      | delete =>
        rcases get_deleteMutation hhead' with hold | ⟨rfl, hbelow, -⟩
        · rw [hhead] at hold
          cases hold
          exact hdis hagrees
        · exact hrestores ⟨hbelow, hagrees⟩
    obtain ⟨head', hhead', hdis'⟩ := hm
    exact ih (fun m' hm' => hnot m' (mem_cons_of_mem m hm')) hhead' hdis'

theorem ConflictSound.published (h : ConflictSound t s) {q : PublisherID}
    {claim : PendingPublishClaim} {build : PendingPublishBuild}
    (hstage : s.publishers q = .built claim build)
    (hcareful : Careful t s (.finalize q now)) : ConflictSound t (publishBatch s now build) := by
  simp only [Careful, hstage] at hcareful
  refine h.of_kept (.refl _) (.refl _) (fun _ _ hget => .inl hget) ?_ ?_
  · rw [queue_publishBatch, map_map]
    exact map_congr_left fun r _ => claimed_mark build.entries r
  · intro r hr ps hps htree hguard
    refine ⟨hguard.1, fun p hp => ?_⟩
    obtain ⟨head, hhead, hdis⟩ := hguard.2 p hp
    refine agrees_applyPathHeadMutations (fun m hm => ?_) hhead hdis
    obtain ⟨e, he, hme⟩ := mem_flatMap.mp hm
    obtain ⟨row, hrow, rfl⟩ := mem_queue.mp hr
    exact hcareful e he m hme row hrow ps hps htree p hp

/-! ## Every run -/

theorem patchsetBuilt_newPatchset {upload : PatchsetUpload}
    {baseTree resultTree : Node} {v : ValidatedEdits}
    (hv : validateFileEdits blobs upload.includedPaths upload.readablePaths baseTree
      upload.fileEdits = .ok v)
    (hresult : resultTreeForPatchset blobs baseTree v.fileEdits = .ok resultTree)
    (id : ChangesetID) (number : Nat) :
    PatchsetBuilt blobs (newPatchset id number upload v baseTree resultTree) := by
  obtain ⟨-, hchanged, hbases⟩ := validateFileEdits_ok hv
  obtain ⟨tes, htes, happly⟩ := Except.bind_eq_ok.mp hresult
  exact ⟨hchanged, hbases, tes, htes, fromTree_ok happly⟩

theorem ConflictSound.setStage (h : ConflictSound t s) (p : PublisherID)
    (stage : PublisherStage) : ConflictSound t (s.setStage p stage) :=
  h.of_extends (.refl _) (.refl _) (fun _ _ hget => .inl hget) rfl (.refl _)

theorem ConflictSound.requeued (h : ConflictSound t s) (hr : Requeues s s') :
    ConflictSound t s' := by
  have hqueue := hr.queue
  obtain ⟨rows, publishers, rfl⟩ := hr.others
  exact h.of_extends (.refl _) (.refl _) (fun _ _ hget => .inl hget) hqueue (.refl _)

theorem Transition.conflictSound {a : Action} (ht : Transition s a s') (hcareful : Careful t s a)
    (h : ConflictSound t s) : ConflictSound t s' := by
  have hold : ∀ id ps, s.patchsets.get id = some ps →
      s.patchsets.get id = some ps ∨ PatchsetBuilt s.blobs ps := fun _ _ hget => .inl hget
  cases ht with
  | refused => exact h
  | setSlice | create | approve | reportCheckResult | abandon =>
    exact h.of_extends (.refl _) (.refl _) hold rfl (.refl _)
  | putBlob =>
    exact h.of_extends (.refl _) (Table.extends_insertNew _ _ _) (fun _ _ hget => .inl hget) rfl
      (.refl _)
  | addPatchset now id expected patchset upload c baseTree v resultTree hc hab hsub hbase hv hresult
      hnew =>
    have hbuilt := patchsetBuilt_newPatchset hv hresult id (c.currentNumber + 1)
    refine h.of_extends (Table.extends_set hnew _) (.refl _) (fun id' ps hget => ?_) rfl (.refl _)
    rcases Table.get_set_cases hget with ⟨-, rfl⟩ | ⟨-, hget⟩
    · exact .inr hbuilt
    · exact .inl hget
  | blocked now req reason heads hstop =>
    refine h.of_extends (.refl _) (.refl _) hold rfl ?_
    rcases admission_blocked hstop with rfl | ⟨c, id, ps, -, hheads⟩
    · exact .refl _
    · exact extends_acceptedHeads hheads
  | admitted now req a ps hadmits => exact h.admits hadmits hcareful
  | reap now => exact h.requeued (requeues_reap s now)
  | claim p now limit s₁ claim hidle hclaim =>
    have hqueue := queue_claim hclaim
    have hsame : ConflictSound t s₁ := by
      obtain ⟨-, -, -, rfl⟩ := claimPendingPublishBatch_some hclaim
      exact h.of_extends (.refl _) (.refl _) hold hqueue (.refl _)
    exact hsame.setStage p _
  | build p | fail _ p | stop p => exact h.setStage p _
  | reset a p now claim =>
    exact (h.requeued (requeues_resetClaim s now claim)).setStage p _
  | publish p now claim build hstage =>
    exact (h.published hstage hcareful).setStage p _

end Invariant

/-- **Conflicts are refused**: for every tree and every run of careful steps, admitted patchsets
that were built on the tree change no overlapping paths. -/
theorem conflicts_refused (t root : Node) (as : List Action)
    (hcareful : Machine.Meets step (Careful t) (State.start root) as) :
    WritesApart t (Machine.run step (State.start root) as) := by
  have h := Machine.run_induction (ConflictSound t)
    (fun s a h hcond => (step_transition s a).conflictSound hcond h) (conflictSound_start t root) hcareful
  intro r hr r' hr' hne ps hps ps' hps' htree htree'
  exact h.apart _ (mem_map_of_mem hr) _ (mem_map_of_mem hr') hne ps ps' hps hps' htree htree'

/-- The tree of the commit that `seeding` lands. -/
def seededTree : Node := ((Machine.run step (State.start .nil) seeding).rootTree seeded).getD .nil

/-- The deletion of a folder and an edit of a file below it, built on one tree, are both
admitted. -/
theorem overlap_folderDeleted :
    ∃ r ∈ (Machine.run step (State.start .nil) folderDeleted).pendingPublish,
      ∃ r' ∈ (Machine.run step (State.start .nil) folderDeleted).pendingPublish,
        r.changeset ≠ r'.changeset ∧
        ∃ ps ∈ (Machine.run step (State.start .nil) folderDeleted).patchsets.get r.patchset,
          ∃ ps' ∈ (Machine.run step (State.start .nil) folderDeleted).patchsets.get r'.patchset,
            ps.baseTree = seededTree ∧ ps'.baseTree = seededTree ∧
              ∃ p ∈ ps.changedPaths, ∃ q ∈ ps'.changedPaths, Overlaps p q := by
  decide +kernel

theorem conflicts_refused_filesChanged :
    Machine.Meets step (Careful seededTree) (State.start .nil) (filesChanged ++ publishAll) ∧
      (Machine.run step (State.start .nil) (filesChanged ++ publishAll)).outbox.map
        CommitPublished.changeset = ["cs_0", "cs_1", "cs_2"] ∧
      WritesApart seededTree (Machine.run step (State.start .nil) (filesChanged ++ publishAll)) :=
  ⟨by decide +kernel, by decide +kernel, conflicts_refused seededTree .nil _ (by decide +kernel)⟩

end GitSlice
