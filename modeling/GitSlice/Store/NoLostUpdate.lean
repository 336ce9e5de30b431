import GitSlice.Store.Accepted
import GitSlice.Store.Order

/-! # No lost update, and `path_heads` as the accepted state
A patchset is admitted when its bases agree with `path_heads`, and lands later on a tree that nobody
compares with its bases again. So that nothing is lost, `path_heads` has to say what the accepted
tree (`acceptedTree`) has. This holds in every run whose steps are `Orderly`: claims are made only
while no row is claimed, what is admitted stays admitted, and an admitted patchset changes single
files and no path that a waiting one deletes, moves or copies onto.

Without the last condition it is false: rows below a folder are not looked at when the folder is
edited, and the row of a folder is not written when a file below it is (`lost_update_folderDeleted`,
`stale_head_folderDeleted`). -/

namespace GitSlice

open Node List GitSlice.Except Table

/-! ## The accepted tree -/

/-- The rows of admitted changesets that are not published, in the order of admission. -/
def State.waitingRows (s : State) : List PendingPublish :=
  s.pendingPublish.filter fun r => ∃ c ∈ s.changesets.get r.changeset, c.status = .pendingPublish

/-- The edits of the tree of a patchset. -/
def State.editsOf (s : State) (id : PatchsetID) : Except StoreError (List TreeEdit) :=
  match s.patchsets.get id with
  | none => .error .notFound
  | some ps => treeEditsFromPatchset s.blobs ps.fileEdits

/-- The **accepted tree**: the ref's tree with the edits of the rows that wait, applied by
`ApplyEditChain`. -/
def acceptedTree (s : State) : Except StoreError Node :=
  match s.rootTree s.ref with
  | none => .error .notFound
  | some root => do
    let sets ← s.waitingRows.mapM fun r => s.editsOf r.patchset
    let trees ← fromTree (applyEditChain root sets)
    return trees.getLast?.getD root

/-- Every row of `path_heads` says what the tree has at its path, unless that is a folder. -/
def HeadsFollow (s : State) (T : Node) : Prop :=
  ∀ x ∈ s.pathHeads.rows, T.folderAt (splitPath x.1) = false → x.2 = headAt T x.1

/-- Every landed patchset's bases hold in the tree of the commit it landed on. -/
def NoLostUpdate (s : State) : Prop :=
  ∀ r ∈ s.pendingPublish, ∀ k, r.commit = some k → ∃ row parent n ps, s.commits.get k = some row ∧
    row.parentIds = [parent] ∧ s.rootTree parent = some n ∧ s.patchsets.get r.patchset = some ps ∧
    ∀ b ∈ ps.pathBases, BaseHolds n b

/-! ## Orderly steps -/

/-- On the accepted tree the patchset's edits are flat, and it keeps off the patchsets that wait. -/
def LandsApart (s : State) (ps : Patchset) : Prop :=
  ∃ T ∈ (acceptedTree s).toOption, ∃ tes ∈ (treeEditsFromPatchset s.blobs ps.fileEdits).toOption,
    ∃ T' ∈ (applyEditSet T tes).toOption, Flat T tes T' ∧
      ∀ r ∈ s.waitingRows, ∀ ps' ∈ s.patchsets.get r.patchset, ps.KeepsOff ps'

instance (s : State) (ps : Patchset) : Decidable (LandsApart s ps) := by
  unfold LandsApart
  infer_instance

/-- An **orderly** step. -/
def Orderly (s : State) : Action → Prop
  -- no path with a segment that ends in white space is uploaded
  | .addPatchset _ _ _ _ upload => ∀ e ∈ upload.fileEdits, ∀ p ∈ e.writes ++ e.reads, Tidy p
  -- a patchset whose bases agree with the rows changes single files, apart from what waits
  | .submit _ req => ∀ c ∈ s.changesets.get req.changeset, c.status = .draft →
      ∀ id ∈ c.currentPatchset, ∀ ps ∈ s.patchsets.get id,
        ∀ heads ∈ (acceptedHeads s ps.pathBases).toOption,
          pathBasesHold heads ps.pathBases = true → LandsApart s ps
  -- what is admitted is not abandoned
  | .abandon _ id => ∀ c ∈ s.changesets.get id, c.status ≠ .pendingPublish
  -- one claim at a time
  | .claim _ _ _ => ∀ r ∈ s.pendingPublish, r.status ≠ .publishing
  | _ => True

instance (s : State) (a : Action) : Decidable (Orderly s a) := by
  rcases a with _ | _ <;> dsimp only [Orderly] <;> infer_instance

variable {s : State} {a : Action}

theorem Orderly.claimsAlone (h : Orderly s a) : ClaimsAlone s a := by
  cases a <;> first | exact h | trivial

/-! ## The invariant -/

/-- The patchsets that wait lead from the ref's tree to a tree that `path_heads` agrees with. -/
structure Accepted (s : State) (n T : Node) (pss : List Patchset) : Prop where
  root : s.rootTree s.ref = some n
  rows : List.Forall₂ (fun r ps => s.patchsets.get r.patchset = some ps) s.unlanded pss
  waits : ∀ r ∈ s.unlanded, ∃ c, s.changesets.get r.changeset = some c ∧ c.status = .pendingPublish
  chain : LandChain s.blobs n pss T
  heads : HeadsAgree s.pathHeads T
  written : ∀ ps ∈ pss, ∀ p ∈ ps.writes, (s.pathHeads.get p).isSome

/-- The invariant of orderly runs. -/
structure AcceptedSound (s : State) : Prop where
  index : s.flatIndex = none
  proper : ∀ id ps, s.patchsets.get id = some ps → ps.Proper
  accepted : ∃ n T pss, Accepted s n T pss
  landed : ∀ e ∈ s.outbox, ∃ ps n, s.patchsets.get e.patchset = some ps ∧
    s.rootTree e.baseCommit = some n ∧ ∀ b ∈ ps.pathBases, BaseHolds n b

theorem acceptedSound_start (root : Node) : AcceptedSound (State.start root) where
  index := rfl
  proper := fun _ _ h => by cases h
  accepted := by
    refine ⟨root, root, [], ?_, .nil, by simp [State.unlanded, State.queue, State.start], rfl,
      ?_, by simp⟩
    · rw [State.rootTree, State.start, get_set_self]
      rfl
    · intro p head h
      cases h
  landed := by simp [State.start]

variable {root : Node}

/-- The rows of the changesets that wait are those that are not landed. -/
theorem map_waitingRows (hs : Sound root s)
    (hwaits : ∀ r ∈ s.unlanded, ∃ c, s.changesets.get r.changeset = some c ∧
      c.status = .pendingPublish) : s.waitingRows.map PendingPublish.queueRow = s.unlanded := by
  rw [State.unlanded, State.queue, filter_map]
  refine congrArg _ (filter_congr fun r hr => decide_eq_decide.mpr ?_)
  have hqueue : r.queueRow ∈ s.queue := mem_map_of_mem hr
  constructor
  · rintro ⟨c, hc, hst⟩
    -- a landed row's changeset is submitted
    cases hcommit : r.commit with
    | none => exact hcommit
    | some k =>
      obtain ⟨e, he, hcs, -, -⟩ := hs.status.landed _ hqueue k hcommit
      exact absurd hcs (hs.status.not_logged hc (by rw [hst]; decide) e he)
  · intro hnone
    exact hwaits _ (mem_unlanded.mpr ⟨hqueue, hnone⟩)

variable {pss : List Patchset}

theorem mapM_editsOf {rows : List QueueRow}
    (h : List.Forall₂ (fun r ps => s.patchsets.get r.patchset = some ps) rows pss) :
    (rows.mapM fun r => s.editsOf r.patchset) =
      pss.mapM fun ps => treeEditsFromPatchset s.blobs ps.fileEdits := by
  induction h with
  | nil => rfl
  | cons hget _ ih => rw [mapM_cons, mapM_cons, ih, State.editsOf, hget]

theorem Accepted.acceptedTree_eq (hs : Sound root s) {n T : Node} (h : Accepted s n T pss) :
    acceptedTree s = .ok T := by
  obtain ⟨sets, trees, hsets, htrees, hlast⟩ := h.chain.applyEditChain
  have hrows : (s.waitingRows.mapM fun r => s.editsOf r.patchset) = .ok sets := by
    have hmap : ((s.waitingRows.map PendingPublish.queueRow).mapM fun r => s.editsOf r.patchset) =
        .ok sets := by
      rw [map_waitingRows hs h.waits, mapM_editsOf h.rows, hsets]
    rw [mapM_map] at hmap
    exact hmap
  rw [acceptedTree, h.root]
  refine bind_eq_ok.mpr ⟨sets, hrows, bind_eq_ok.mpr ⟨trees, ?_, ?_⟩⟩
  · rw [htrees]
    rfl
  · rw [← hlast]
    rfl

/-! ## Steps that neither admit nor publish -/

theorem LandChain.mono {blobs blobs' : Table BlobID Blob} (hb : blobs.Extends blobs') {n T : Node}
    (h : LandChain blobs n pss T) : LandChain blobs' n pss T := by
  induction pss generalizing n with
  | nil => exact h
  | cons ps pss ih =>
    obtain ⟨⟨n', hlands, hrest⟩, hoff⟩ := h
    exact ⟨⟨n', hlands.mono fun _ => treeEditsFromPatchset_extends hb, ih hrest⟩, hoff⟩

/-- What a step has to leave alone. -/
structure LeavesAccepted (s s' : State) : Prop where
  index : s'.flatIndex = s.flatIndex
  patchsets : s.patchsets.Extends s'.patchsets
  blobs : s.blobs.Extends s'.blobs
  commits : s'.commits = s.commits
  ref : s'.ref = s.ref
  queue : s'.queue = s.queue
  outbox : s'.outbox = s.outbox
  waits : ∀ id c, s.changesets.get id = some c → c.status = .pendingPublish →
    ∃ c', s'.changesets.get id = some c' ∧ c'.status = .pendingPublish

variable {s' : State}

theorem AcceptedSound.of_leaves (h : AcceptedSound s) (hl : LeavesAccepted s s')
    (hproper : ∀ id ps, s'.patchsets.get id = some ps → s.patchsets.get id = some ps ∨ ps.Proper)
    (hheads : ∀ n T pss, Accepted s n T pss → HeadsAgree s'.pathHeads T ∧
      ∀ p, (s.pathHeads.get p).isSome → (s'.pathHeads.get p).isSome) : AcceptedSound s' where
  index := hl.index.trans h.index
  proper := fun id ps hps => (hproper id ps hps).elim (h.proper id ps) fun hp => hp
  accepted := by
    obtain ⟨n, T, pss, ha⟩ := h.accepted
    obtain ⟨hagree, hkept⟩ := hheads n T pss ha
    have hunlanded : s'.unlanded = s.unlanded := by rw [State.unlanded, hl.queue, State.unlanded]
    refine ⟨n, T, pss, ?_, ?_, ?_, ha.chain.mono hl.blobs, hagree, ?_⟩
    · rw [State.rootTree, hl.commits, hl.ref]
      exact ha.root
    · rw [hunlanded]
      exact ha.rows.imp fun r ps hget => hl.patchsets _ _ hget
    · rw [hunlanded]
      intro r hr
      obtain ⟨c, hc, hst⟩ := ha.waits r hr
      exact hl.waits _ c hc hst
    · exact fun ps hps p hp => hkept p (ha.written ps hps p hp)
  landed := by
    rw [hl.outbox]
    intro e he
    obtain ⟨ps, n, hps, hn, hbases⟩ := h.landed e he
    refine ⟨ps, n, hl.patchsets _ _ hps, ?_, hbases⟩
    rw [State.rootTree, hl.commits]
    exact hn

/-- A step that leaves the rows of `path_heads` and the patchsets alone too. -/
theorem AcceptedSound.of_same (h : AcceptedSound s) (hl : LeavesAccepted s s')
    (hps : s'.patchsets = s.patchsets) (hheads : s'.pathHeads = s.pathHeads) : AcceptedSound s' :=
  h.of_leaves hl (fun _ _ hget => .inl (hps ▸ hget))
    (fun _ _ _ ha => ⟨hheads ▸ ha.heads, fun _ => hheads ▸ id⟩)

variable {id : ChangesetID}

theorem waits_set {changesets : Table ChangesetID Changeset} {c c' : Changeset}
    (hc : changesets.get id = some c)
    (hst : c.status = .pendingPublish → c'.status = .pendingPublish) :
    ∀ k d, changesets.get k = some d → d.status = .pendingPublish →
      ∃ d', (changesets.set id c').get k = some d' ∧ d'.status = .pendingPublish := by
  intro k d hd hdst
  refine exists_get_set hd hdst fun _ hget => hst ?_
  rw [hc] at hget
  cases hget
  exact hdst

theorem Prepares.leavesAccepted (h : Prepares s s') (hindex : s'.flatIndex = s.flatIndex) :
    LeavesAccepted s s' where
  index := hindex
  patchsets := h.patchsets
  blobs := h.blobs
  commits := h.commits
  ref := h.ref
  queue := h.queue
  outbox := h.outbox
  waits := by
    intro id c hc hst
    obtain ⟨c', hc', hk⟩ := h.kept id c hc
    exact ⟨c', hc', hk.status.trans hst⟩

theorem AcceptedSound.of_prepares (h : AcceptedSound s) (hp : Prepares s s')
    (hindex : s'.flatIndex = s.flatIndex) (hps : s'.patchsets = s.patchsets)
    (hheads : s'.pathHeads = s.pathHeads) : AcceptedSound s' :=
  h.of_same (hp.leavesAccepted hindex) hps hheads

theorem proper_newPatchset {blobs : Table BlobID Blob} {upload : PatchsetUpload} {baseTree : Node}
    {v : ValidatedEdits}
    (hv : validateFileEdits blobs upload.includedPaths upload.readablePaths baseTree
      upload.fileEdits = .ok v)
    (htidy : ∀ e ∈ upload.fileEdits, ∀ p ∈ e.writes ++ e.reads, Tidy p) (id : ChangesetID)
    (number : Nat) (resultTree : Node) :
    (newPatchset id number upload v baseTree resultTree).Proper := by
  obtain ⟨hedits, hchanged, hbases⟩ := validateFileEdits_ok hv
  constructor
  · intro e' he' p hp
    obtain ⟨e, he, hw, hr⟩ := exists_left_of_forall₂ (Forall₂.flip hedits) he'
    rw [hw, hr] at hp
    exact htidy e he p hp
  · intro b hb
    have hb' : b ∈ v.pathBases := hb
    rw [hbases] at hb'
    obtain ⟨p, hp, rfl⟩ := mem_map.mp hb'
    -- the path is a changed one or one that is only read
    have hpath : p ∈ v.fileEdits.flatMap Edit.writes ∨ p ∈ v.fileEdits.flatMap Edit.reads := by
      rcases mem_append.mp hp with hp | hp
      · rw [hchanged, mem_sortedPaths] at hp
        exact .inl hp
      · rw [readOnlyPaths, mem_sortedPaths] at hp
        exact .inr (mem_of_mem_filter hp)
    rcases hpath with hp | hp
    · obtain ⟨e, he, hpe⟩ := mem_flatMap.mp hp
      exact ⟨e, he, mem_append_left _ hpe⟩
    · obtain ⟨e, he, hpe⟩ := mem_flatMap.mp hp
      exact ⟨e, he, mem_append_right _ hpe⟩

variable {heads : Table Path PathHead} {req : SubmitRequest} {now : Time}

theorem AcceptedSound.blocked (h : AcceptedSound s) {reason : String}
    (hstop : admission s req = .error (.blocked reason heads)) :
    AcceptedSound (blockSubmit s now req.changeset reason heads) := by
  have hleaves := (prepares_blockSubmit s now req.changeset reason heads).leavesAccepted rfl
  refine h.of_leaves hleaves (fun _ _ hget => .inl hget) fun n T pss ha => ?_
  rcases admission_blocked hstop with rfl | ⟨c, id, ps, hopen, hheads⟩
  · exact ⟨ha.heads, fun _ hp => hp⟩
  · obtain ⟨-, -, -, -, -, -, hps, -⟩ := openForSubmit_ok hopen
    have hproper := h.proper id ps hps
    exact ⟨ha.heads.accepted h.index ha.root ha.chain ha.written (fun b hb => hproper.tidy_base hb)
      hheads, fun p => isSome_acceptedHeads hheads⟩

/-! ## The step that admits -/

theorem unlanded_admitted (s : State) (now : Time) (id : ChangesetID) (a : Admission) :
    (admitted s now id a).unlanded = s.unlanded ++ [⟨s.nextSequence, id, a.patchset, none⟩] := by
  rw [State.unlanded, queue_admitted, filter_append]
  rfl

theorem AcceptedSound.admits (hs : Sound root s) (h : AcceptedSound s) {a : Admission}
    {ps : Patchset} (ha : Admits s req a ps) (horderly : Orderly s (.submit now req)) :
    AcceptedSound (admitted s now req.changeset a) := by
  obtain ⟨hc, -, -, -, -, hcurrent, hps, -⟩ := openForSubmit_ok ha.opened
  have hproper := h.proper _ ps hps
  obtain ⟨heads, hbases, hedits⟩ := ha.heads
  obtain ⟨hheads, hhold⟩ := requirePathBases_ok hbases
  obtain ⟨n, T, pss, hacc⟩ := h.accepted
  -- the changeset is a draft, so that the condition speaks about it
  have hdraft := hs.status.draft_of_admits ha
  obtain ⟨T₀, hT₀, tes, htes, T', -, hflat, hoff⟩ :=
    horderly _ hc hdraft _ hcurrent ps hps heads (toOption_eq_some.mpr hheads) hhold
  have hsame : T₀ = T := by
    have heq := hacc.acceptedTree_eq hs
    rw [toOption_eq_some.mp hT₀] at heq
    exact Except.ok.inj heq
  subst hsame
  replace htes := toOption_eq_some.mp htes
  have hagree := hacc.heads.accepted h.index hacc.root hacc.chain hacc.written
    (fun b hb => hproper.tidy_base hb) hheads
  obtain ⟨hagree', hwritten⟩ := hagree.edited hproper htes hflat (headsAfterEdits_ok hedits)
  -- its bases hold in the accepted tree: they are of files, and the rows agree there
  have hlands : Lands s.blobs T₀ ps T' := by
    refine ⟨hproper, ⟨tes, htes, hflat⟩, fun b hb => ?_⟩
    obtain ⟨e, he, hbe⟩ := hproper.bases b hb
    obtain ⟨te, hte, hedit⟩ := exists_treeEdit htes he
    have hfile := hflat.files te hte b.path (by
      rw [(treeEdit_paths hedit).1, (treeEdit_paths hedit).2.1]
      exact hbe)
    rw [(hproper.tidy_base hb).plain] at hfile
    exact hagree.baseHolds hhold hb hfile
  have hkeeps : ∀ ps' ∈ pss, ps.KeepsOff ps' := by
    intro ps' hps'
    obtain ⟨r, hr, hget⟩ := exists_left_of_forall₂ hacc.rows hps'
    rw [← map_waitingRows hs hacc.waits] at hr
    obtain ⟨row, hrow, rfl⟩ := mem_map.mp hr
    exact hoff row hrow ps' hget
  refine ⟨h.index, h.proper, ⟨n, T', pss ++ [ps], hacc.root, ?_, ?_, ?_, hagree', ?_⟩, h.landed⟩
  · rw [unlanded_admitted]
    exact rel_append hacc.rows (.cons hps .nil)
  · rw [unlanded_admitted]
    intro r hr
    rcases mem_append.mp hr with hr | hr
    · obtain ⟨c, hcr, hst⟩ := hacc.waits r hr
      exact ⟨c, (get_admitted_of_ne (ha.ne_of_mem_queue (mem_unlanded.mp hr).1)).trans hcr, hst⟩
    · rw [mem_singleton.mp hr]
      exact ⟨_, get_set_self _ _ _, rfl⟩
  · exact hacc.chain.append hlands hkeeps
  · intro ps' hps' p hp
    rcases mem_append.mp hps' with hps' | hps'
    · by_cases hw : p ∈ ps.writes
      · exact hwritten p hw
      · have hframe := get_applyPathHeadEdits_of_notMem (headsAfterEdits_ok hedits) hw
        show (a.heads.get p).isSome
        rw [hframe]
        exact isSome_acceptedHeads hheads (hacc.written ps' hps' p hp)
    · rw [mem_singleton.mp hps'] at hp
      exact hwritten p hp

/-! ## The step that publishes -/

/-- The entries of a batch land as the chain of waiting patchsets says: the rest of the chain starts
at their last tree, the rows stay in agreement, and each has its bases in its parent's tree. -/
theorem landChain_batch {parent : CommitID} {m T : Node} {entries : List PublishEntry}
    {pss' : List Patchset} (hmade : MadeOn s parent m entries)
    (hrows : List.Forall₂ (fun e ps => s.patchsets.get e.row.patchset = some ps) entries pss)
    (hchain : LandChain s.blobs m (pss ++ pss') T) (hheads : HeadsAgree heads T)
    (hparent : s'.rootTree parent = some m)
    (hget : ∀ e ∈ entries, s'.commits.get e.commitId = some e.commit) :
    (∃ m', s'.rootTree ((entries.getLast?.map PublishEntry.commitId).getD parent) = some m' ∧
      LandChain s.blobs m' pss' T) ∧
    HeadsAgree (applyPathHeadMutations heads (entries.flatMap PublishEntry.mutations)) T ∧
    ∀ e ∈ entries, ∃ ps n, s.patchsets.get e.row.patchset = some ps ∧
      s'.rootTree e.baseCommit = some n ∧ ∀ b ∈ ps.pathBases, BaseHolds n b := by
  induction hrows generalizing parent m heads with
  | nil => exact ⟨⟨m, hparent, hchain⟩, hheads, by simp⟩
  | cons hps hrest ih =>
    rename_i e ps entries pss
    obtain ⟨hmade₁, hmade⟩ := hmade
    obtain ⟨⟨m', hlands, hchain'⟩, hoff⟩ := hchain
    obtain ⟨ps₀, tes₀, hps₀, htes₀, hroot, hmut⟩ := hmade₁.tree
    rw [hps] at hps₀
    cases hps₀
    -- the tree of the commit is the one the chain goes through
    have htree : e.commit.rootTree = m' := by
      obtain ⟨tes, htes, hflat⟩ := hlands.flat
      rw [htes] at htes₀
      cases htes₀
      rw [hflat.applies] at hroot
      exact (Except.ok.inj hroot).symm
    subst htree
    have hcommit : s'.rootTree e.commitId = some e.commit.rootTree := by
      rw [State.rootTree, hget e mem_cons_self]
      rfl
    have hheads' := hheads.refreshed hlands hchain' hoff hmut
    obtain ⟨hlast, hagree, hbases⟩ := ih hmade hchain' hheads' hcommit fun e' he' =>
      hget e' (mem_cons_of_mem e he')
    refine ⟨?_, ?_, ?_⟩
    · have hend : (((e :: entries).getLast?.map PublishEntry.commitId).getD parent) =
          (entries.getLast?.map PublishEntry.commitId).getD e.commitId := by
        cases entries <;> simp [List.getLast?_cons]
      rw [hend]
      exact hlast
    · rw [flatMap_cons, applyPathHeadMutations, foldl_append]
      exact hagree
    · refine forall_mem_cons.mpr ⟨⟨ps, m, hps, ?_, hlands.bases⟩, hbases⟩
      rw [hmade₁.base]
      exact hparent

variable {build : PendingPublishBuild}

/-- The rows that are not landed after a batch, when the batch is the beginning of those before. -/
theorem unlanded_publishBatch (hs : QueueSound s) (now : Time)
    (hrows : ∀ e ∈ build.entries, ∃ r ∈ s.queue, r.claimed = e.row) {u v : List QueueRow}
    (hsplit : s.unlanded = u ++ v)
    (hu : build.entries.map PublishEntry.row = u.map QueueRow.claimed) :
    (publishBatch s now build).unlanded = v := by
  have hnd : (s.unlanded.map QueueRow.claimed).Nodup := by
    refine List.Nodup.of_map ClaimedRow.sequence ?_
    rw [map_map]
    exact hs.nodup_sequence.sublist (filter_sublist.map _)
  rw [hsplit, map_append] at hnd
  have hdisj := (nodup_append.mp hnd).2.2
  -- a row stays unlanded when it was and is not in the batch
  have hstays : ∀ r ∈ s.queue, (r.mark build.entries).commit = none ↔
      r.commit = none ∧ r.claimed ∉ build.entries.map PublishEntry.row := by
    intro r hr
    obtain ⟨hmark, hnot⟩ | ⟨e, he, hrow, hmark⟩ := hs.mark_cases hrows hr
    · rw [hmark]
      refine (and_iff_left ?_).symm
      rintro hmem
      obtain ⟨e, he, heq⟩ := mem_map.mp hmem
      exact hnot e he heq
    · rw [hmark]
      constructor
      · intro h
        cases h
      · rintro ⟨-, hnot⟩
        exact absurd (hrow ▸ mem_map_of_mem he) hnot
  have hfilter : (publishBatch s now build).unlanded =
      (s.unlanded.filter fun r => r.claimed ∉ build.entries.map PublishEntry.row).map
        (QueueRow.mark build.entries) := by
    rw [State.unlanded, queue_publishBatch, filter_map, State.unlanded, filter_filter]
    refine congrArg _ (filter_congr fun r hr => ?_)
    have hiff := hstays r hr
    simp only [Function.comp, hiff, Bool.decide_and]
    exact Bool.and_comm _ _
  have hu_gone : (u.filter fun r => r.claimed ∉ build.entries.map PublishEntry.row) = [] := by
    refine filter_eq_nil_iff.mpr fun r hr => ?_
    rw [hu]
    simpa using ⟨r, hr, rfl⟩
  have hv_stays : ∀ r ∈ v, r.claimed ∉ build.entries.map PublishEntry.row := by
    intro r hr hmem
    rw [hu] at hmem
    exact hdisj _ hmem _ (mem_map_of_mem hr) rfl
  have hv : (v.filter fun r => r.claimed ∉ build.entries.map PublishEntry.row) = v :=
    filter_eq_self.mpr fun r hr => decide_eq_true (hv_stays r hr)
  rw [hfilter, hsplit, filter_append, hu_gone, hv]
  refine (map_congr_left fun r hr => ?_).trans (map_id _)
  have hqueue : r ∈ s.queue := by
    have hmem : r ∈ s.unlanded := by
      rw [hsplit]
      exact mem_append_right _ hr
    exact (mem_unlanded.mp hmem).1
  obtain ⟨hmark, -⟩ | ⟨e, he, hrow, -⟩ := hs.mark_cases hrows hqueue
  · exact hmark
  · exact absurd (hrow ▸ mem_map_of_mem he) (hv_stays r hr)

variable {claim : PendingPublishClaim} {p : PublisherID}

theorem batch_eq_prefix (hs : Sound root s) (ho : Ordered s)
    (hwaits : ∀ r ∈ s.unlanded, ∃ c, s.changesets.get r.changeset = some c ∧
      c.status = .pendingPublish)
    (hstage : s.publishers p = .built claim build) (href : s.ref = claim.originalCommit) :
    build.entries.map PublishEntry.row <+: s.unlanded.map QueueRow.claimed := by
  obtain ⟨hclaim, hbuild⟩ := hs.claims.of_built hstage
  have hpre := ho.claims p claim (by rw [hstage]; rfl) href.symm
  -- no row is skipped, since every changeset waits
  have hsubset : claim.rows ⊆ build.entries.map PublishEntry.row := by
    intro row hrow
    rcases ho.skipped p claim build hstage row hrow with hmem | ⟨c, hc, hst⟩
    · exact hmem
    · obtain ⟨r, hr, rfl⟩ := mem_map.mp (hpre.subset hrow)
      obtain ⟨c', hc', hst'⟩ := hwaits r hr
      have heq : c = c' := Option.some.inj (hc.symm.trans hc')
      rw [heq] at hst
      exact absurd hst' hst
  have hnd : claim.rows.Nodup := by
    refine List.Nodup.sublist hclaim.rows (List.Nodup.of_map ClaimedRow.sequence ?_)
    rw [map_map]
    exact hs.queue.nodup_sequence
  have hlen : claim.rows.length ≤ (build.entries.map PublishEntry.row).length :=
    (subperm_of_subset hnd hsubset).length_le
  rw [hbuild.rows.eq_of_length_le hlen]
  exact hpre

theorem AcceptedSound.published (hs : Sound root s) (ho : Ordered s) (h : AcceptedSound s)
    (hstage : s.publishers p = .built claim build) (href : s.ref = claim.originalCommit)
    (hlock : lockPendingPublishChangesets s build.entries = .ok ()) :
    AcceptedSound (publishBatch s now build) := by
  obtain ⟨hclaim, hbuild⟩ := hs.claims.of_built hstage
  have hb := batchLocked hs.queue hclaim hbuild hlock
  have hgrows := grows_publishBatch now hbuild.made href
  obtain ⟨n, T, pss, hacc⟩ := h.accepted
  have hroot : claim.rootTree = n := by
    have hn := hclaim.rootTree
    rw [← href, hacc.root] at hn
    exact (Option.some.inj hn).symm
  -- the batch is the first of the rows that wait
  obtain ⟨rest, hrest⟩ := batch_eq_prefix hs ho hacc.waits hstage href
  obtain ⟨u, v, hsplit, hu, -⟩ := map_eq_append_iff.mp hrest.symm
  have hunlanded : (publishBatch s now build).unlanded = v :=
    unlanded_publishBatch hs.queue now hb.rows hsplit hu.symm
  have hrows := hacc.rows.flip
  rw [hsplit] at hrows
  have hrows₁ := (forall₂_take_append pss u v hrows).flip
  have hrows₂ := (forall₂_drop_append pss u v hrows).flip
  obtain ⟨pss₁, pss₂, htake, hdrop, rfl⟩ : ∃ pss₁ pss₂, pss.take u.length = pss₁ ∧
      pss.drop u.length = pss₂ ∧ pss = pss₁ ++ pss₂ :=
    ⟨_, _, rfl, rfl, (take_append_drop u.length pss).symm⟩
  rw [htake] at hrows₁
  rw [hdrop] at hrows₂
  have hentries : List.Forall₂ (fun e ps => s.patchsets.get e.row.patchset = some ps)
      build.entries pss₁ := by
    have hclaimed : List.Forall₂ (fun row ps => s.patchsets.get row.patchset = some ps)
        (u.map QueueRow.claimed) pss₁ := forall₂_map_left_iff.mpr hrows₁
    rw [hu] at hclaimed
    exact forall₂_map_left_iff.mp hclaimed
  have hget := (get_insertPublishedCommits hs.chain.described hbuild.made.describes).2
  have hmade := hbuild.made
  rw [hroot, ← href] at hmade
  obtain ⟨⟨m', hm', hchain⟩, hagree, hbases⟩ := landChain_batch hmade hentries hacc.chain hacc.heads
    (rootTree_mono hgrows hacc.root) hget
  refine ⟨h.index, h.proper, ⟨m', T, pss₂, hm', ?_, ?_, hchain, hagree, ?_⟩, ?_⟩
  · rw [hunlanded]
    exact hrows₂
  · rw [hunlanded]
    intro r hr
    obtain ⟨c₀, hc₀, hst₀⟩ := hacc.waits r (by rw [hsplit]; exact mem_append_right _ hr)
    -- its changeset is not in the batch, since the row is not landed
    rw [← hunlanded, mem_unlanded] at hr
    obtain ⟨c, hc, hst⟩ := (statusSound_publishBatch hs.status hs.queue now hb).waiting r hr.1 hr.2
    obtain ⟨e, -, -, c₁, -, -, rfl⟩ | ⟨-, hold⟩ := hb.get_cases hc
    · simp at hst
    · rw [hc₀] at hold
      cases hold
      exact ⟨c₀, hc, hst₀⟩
  · intro ps hps q hq
    exact isSome_applyPathHeadMutations
      (hacc.written ps (mem_append_right _ hps) q hq)
  · intro e he
    rcases mem_append.mp he with he | he
    · obtain ⟨ps, m, hps, hm, hhold⟩ := h.landed e he
      exact ⟨ps, m, hps, rootTree_mono hgrows hm, hhold⟩
    · obtain ⟨entry, hentry, rfl⟩ := mem_map.mp he
      exact hbases entry hentry

/-! ## Every run -/

theorem AcceptedSound.of_rows (h : AcceptedSound s) {rows : List PendingPublish}
    {publishers : PublisherID → PublisherStage}
    (hqueue : rows.map PendingPublish.queueRow = s.queue) :
    AcceptedSound { s with pendingPublish := rows, publishers := publishers } :=
  h.of_same ⟨rfl, .refl _, .refl _, rfl, rfl, hqueue, rfl, fun _ c hc hst => ⟨c, hc, hst⟩⟩ rfl rfl

theorem AcceptedSound.setStage (h : AcceptedSound s) (p : PublisherID) (stage : PublisherStage) :
    AcceptedSound (s.setStage p stage) :=
  h.of_rows rfl

theorem AcceptedSound.requeued (h : AcceptedSound s) (hr : Requeues s s') : AcceptedSound s' := by
  have hqueue := hr.queue
  obtain ⟨rows, publishers, rfl⟩ := hr.others
  exact h.of_rows hqueue

theorem Transition.acceptedSound (ht : Transition s a s') (horderly : Orderly s a)
    (hs : Sound root s) (ho : Ordered s) (h : AcceptedSound s) : AcceptedSound s' := by
  cases ht with
  | refused => exact h
  | setSlice => exact h.of_prepares (OnlyPrepared.refl.prepares (.refl _) (.refl _)) rfl rfl rfl
  | putBlob => exact h.of_prepares (OnlyPrepared.refl.prepares (.refl _) (extends_insertNew _ _ _)) rfl rfl rfl
  | create now id subject req hnew =>
    exact h.of_prepares ((OnlyPrepared.set (.inr ⟨hnew, rfl, rfl⟩)).prepares (.refl _) (.refl _)) rfl rfl rfl
  | addPatchset now id expected patchset upload c baseTree v resultTree hc hab hsub hbase hv hresult
      hnew =>
    have hproper := proper_newPatchset hv horderly id (c.currentNumber + 1) resultTree
    refine h.of_leaves ⟨rfl, extends_set hnew _, .refl _, rfl, rfl, rfl, rfl,
      waits_set hc fun hst => hst⟩ (fun id' ps hget => ?_) fun n T pss ha =>
        ⟨ha.heads, fun _ hp => hp⟩
    rcases get_set_cases hget with ⟨-, rfl⟩ | ⟨-, hget⟩
    · exact .inr hproper
    · exact .inl hget
  | approve now _ _ c _ hopen | reportCheckResult now _ _ _ _ c _ _ hopen =>
    have hset := OnlyPrepared.set (.inl ⟨c, (openPatchset_ok hopen).1, kept_clearRequirementBlock c now⟩)
    exact h.of_prepares (hset.prepares (.refl _) (.refl _)) rfl rfl rfl
  | blocked now req reason heads hstop => exact h.blocked hstop
  | admitted now req a ps hadmits => exact h.admits hs hadmits horderly
  | abandon now id c hc =>
    have hwaits : c.status = .pendingPublish → ChangesetStatus.abandoned = .pendingPublish :=
      fun hst =>
      absurd hst (horderly c hc)
    exact h.of_same ⟨rfl, .refl _, .refl _, rfl, rfl, rfl, rfl, waits_set hc hwaits⟩ rfl rfl
  | reap now => exact h.requeued (requeues_reap s now)
  | claim p now limit s₁ claim hidle hclaim =>
    have hqueue := queue_claim hclaim
    obtain ⟨-, -, -, rfl⟩ := claimPendingPublishBatch_some hclaim
    exact h.of_rows hqueue
  | build p | fail _ p | stop p => exact h.setStage p _
  | reset a p now claim =>
    exact (h.requeued (requeues_resetClaim s now claim)).setStage p _
  | publish p now claim build hstage hentries href hlock =>
    exact (AcceptedSound.published hs ho h hstage href hlock).setStage p _

theorem acceptedSound_run (root : Node) (as : List Action)
    (horderly : Machine.Meets step Orderly (State.start root) as) :
    Sound root (Machine.run step (State.start root) as) ∧
      AcceptedSound (Machine.run step (State.start root) as) := by
  have hrun := Machine.run_induction (fun s => Sound root s ∧ Ordered s ∧ AcceptedSound s)
    (fun s a h hcond => ⟨sound_step h.1 a, (step_move s a).ordered hcond.claimsAlone h.1 h.2.1,
      (step_transition s a).acceptedSound hcond h.1 h.2.1 h.2.2⟩)
    ⟨sound_start root, ordered_start root, acceptedSound_start root⟩ horderly
  exact ⟨hrun.1, hrun.2.2⟩

/-- **No lost update**: in every run of orderly steps, every landed patchset found in the tree of
its commit's parent what its bases record. -/
theorem no_lost_update (root : Node) (as : List Action)
    (horderly : Machine.Meets step Orderly (State.start root) as) :
    NoLostUpdate (Machine.run step (State.start root) as) := by
  obtain ⟨hs, h⟩ := acceptedSound_run root as horderly
  intro r hr k hk
  obtain ⟨e, he, -, hpatchset, rfl⟩ := hs.status.landed _ (mem_map_of_mem hr) k hk
  obtain ⟨n, row, ps, edits, hlanding⟩ := hs.chain.landings e he
  obtain ⟨ps', n', hps', hn', hbases⟩ := h.landed e he
  rw [hpatchset] at hps'
  exact ⟨row, e.baseCommit, n', ps', hlanding.commit, hlanding.parentIds, hn', hps', hbases⟩

/-- **`path_heads` is the accepted state**: in every run of orderly steps there is an accepted tree,
the rows of `path_heads` say what it has, and bases of its files are admitted exactly when they are
its. -/
theorem path_heads_follow_accepted_tree (root : Node) (as : List Action)
    (horderly : Machine.Meets step Orderly (State.start root) as) :
    let s := Machine.run step (State.start root) as
    ∃ T, acceptedTree s = .ok T ∧ HeadsFollow s T ∧
      ∀ bases : List PathBase, (∀ b ∈ bases, Tidy b.path ∧ T.folderAt b.path = false) →
        ∃ heads, acceptedHeads s bases = .ok heads ∧
          (pathBasesHold heads bases = true ↔ ∀ b ∈ bases, b = pathBase T b.path) := by
  intro s
  obtain ⟨hs, h⟩ := acceptedSound_run root as horderly
  obtain ⟨n, T, pss, hacc⟩ := h.accepted
  refine ⟨T, hacc.acceptedTree_eq hs, ?_, ?_⟩
  · rintro ⟨p, head⟩ hx hfile
    obtain ⟨htidy, hagree⟩ := hacc.heads p head ((mem_rows_iff _ _ _).mp hx)
    rw [htidy.plain] at hfile
    rw [headAt, htidy.plain]
    exact hagree hfile
  · intro bases hbases
    have hheads : acceptedHeads s bases = .ok (bases.foldl
        (fun heads b => heads.insertNew b.path (initialPathHead s n b.path)) s.pathHeads) := by
      rw [acceptedHeads, hacc.root]
    refine ⟨_, hheads, ?_⟩
    have hagree := hacc.heads.accepted h.index hacc.root hacc.chain hacc.written
      (fun b hb => (hbases b hb).1) hheads
    rw [pathBasesHold_iff]
    refine forall₂_congr fun b hb => ?_
    obtain ⟨htidy, hfile⟩ := hbases b hb
    -- the path has a row now, and it says what the tree has
    obtain ⟨head, hhead⟩ := exists_acceptedHead hheads hb
    have hentry := (hagree b.path head hhead).2 hfile
    rw [pathBase, headAt, htidy.plain]
    constructor
    · rintro ⟨head', hhead', hvalid⟩
      rw [hhead] at hhead'
      cases hhead'
      rw [hentry] at hvalid
      obtain ⟨hpresent, hfingerprint⟩ := validateAcceptedPathBase_iff.mp hvalid
      rw [← hpresent, ← hfingerprint]
    · intro hb
      refine ⟨head, hhead, ?_⟩
      rw [hentry]
      exact validateAcceptedPathBase_iff.mpr
        ⟨congrArg PathBase.present hb, congrArg PathBase.fingerprint hb⟩

/-! ## A folder deleted while a file below it waits -/

/-- A patchset with the given edits, built on a commit. -/
def editsOn (base : CommitID) (edits : List FileEdit) : PatchsetUpload where
  author := "ann"
  kind := ""
  base := .commit base
  fileEdits := edits
  conflicts := []
  includedPaths := [["acme"]]
  readablePaths := []

/-- A first changeset lands in the empty repository: a folder `d` with two files. -/
def seeding : List Action :=
  [.setSlice "site" openSlice, .putBlob "blob_1" ⟨"hash_1", 3⟩, .putBlob "blob_2" ⟨"hash_2", 4⟩,
    .create 1 "cs_0" "ann" ⟨"site", "seed", "", none, none, none⟩,
    .addPatchset 2 "cs_0" none "ps_0" (editsOn (.initial .nil)
      [.upsert ["acme", "site", "d", "f"] ⟨"blob_1", "", 0⟩,
        .upsert ["acme", "site", "d", "g"] ⟨"blob_1", "", 0⟩]),
    .submit 3 ⟨"cs_0", none, [], false⟩, .claim 1 4 1, .build 1 5, .finalize 1 6]

/-- The commit it landed as. -/
def seeded : CommitID := (Machine.run step (State.start .nil) seeding).ref

/-- Two more changesets on that commit, admitted one after the other. -/
def twoOnSeeded (edits₁ edits₂ : List FileEdit) : List Action :=
  seeding ++ [.create 7 "cs_1" "ann" ⟨"site", "one", "", none, none, none⟩,
    .create 8 "cs_2" "ann" ⟨"site", "two", "", none, none, none⟩,
    .addPatchset 9 "cs_1" none "ps_1" (editsOn seeded edits₁),
    .addPatchset 10 "cs_2" none "ps_2" (editsOn seeded edits₂),
    .submit 11 ⟨"cs_1", none, [], false⟩, .submit 12 ⟨"cs_2", none, [], false⟩]

/-- The second changeset deletes the folder of the file that the first one edits. -/
def folderDeleted : List Action :=
  twoOnSeeded [.upsert ["acme", "site", "d", "f"] ⟨"blob_2", "", 0⟩] [.delete ["acme", "site", "d"]]

/-- One batch publishes what waits. -/
def publishAll : List Action := [.claim 1 13 0, .build 1 14, .finalize 1 15]

/-- The deletion lands on a tree whose folder is not the one its base records: the edit is lost. -/
theorem lost_update_folderDeleted :
    let s := Machine.run step (State.start .nil) (folderDeleted ++ publishAll)
    ∃ r ∈ s.pendingPublish, ∃ k ∈ r.commit, ∃ row ∈ s.commits.get k, ∃ parent ∈ row.parentIds,
      ∃ n ∈ s.rootTree parent, ∃ ps ∈ s.patchsets.get r.patchset, ∃ b ∈ ps.pathBases,
        ¬ BaseHolds n b := by
  decide +kernel

/-- After both are admitted, the row of the file says it is there, and the accepted tree has
nothing. -/
theorem stale_head_folderDeleted :
    let s := Machine.run step (State.start .nil) folderDeleted
    ∃ T ∈ (acceptedTree s).toOption, ∃ x ∈ s.pathHeads.rows, T.folderAt (splitPath x.1) = false ∧
      x.2.present ≠ (headAt T x.1).present := by
  decide +kernel

/-! ## Two files changed -/

/-- One changeset edits a file and the other deletes its neighbour. -/
def filesChanged : List Action :=
  twoOnSeeded [.upsert ["acme", "site", "d", "f"] ⟨"blob_2", "", 0⟩] [.delete ["acme", "site", "d", "g"]]

theorem no_lost_update_filesChanged :
    Machine.Meets step Orderly (State.start .nil) (filesChanged ++ publishAll) ∧
      (Machine.run step (State.start .nil) (filesChanged ++ publishAll)).outbox.map
        CommitPublished.changeset = ["cs_0", "cs_1", "cs_2"] ∧
      NoLostUpdate (Machine.run step (State.start .nil) (filesChanged ++ publishAll)) :=
  ⟨by decide +kernel, by decide +kernel, no_lost_update .nil _ (by decide +kernel)⟩

theorem path_heads_follow_accepted_tree_filesChanged :
    Machine.Meets step Orderly (State.start .nil) filesChanged ∧
      (Machine.run step (State.start .nil) filesChanged).waitingRows.map PendingPublish.changeset =
        ["cs_1", "cs_2"] ∧
      ∃ T, acceptedTree (Machine.run step (State.start .nil) filesChanged) = .ok T ∧
        HeadsFollow (Machine.run step (State.start .nil) filesChanged) T := by
  refine ⟨by decide +kernel, by decide +kernel, ?_⟩
  obtain ⟨T, hT, hfollow, -⟩ := path_heads_follow_accepted_tree .nil filesChanged (by decide +kernel)
  exact ⟨T, hT, hfollow⟩

end GitSlice
