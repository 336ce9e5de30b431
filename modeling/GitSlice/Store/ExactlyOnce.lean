import GitSlice.Store.Ledger

/-! # Exactly-once publication
However transactions and publishers interleave, what is published is one linear chain of commits,
with at most one commit for each admitted row. Three invariants carry this: the queue is in order
and has one row for a changeset (`QueueSound`), the ref's history is the log of the outbox over the
first commit (`ChainSound`), and the statuses of changesets say what is in the queue and in the log
(`StatusSound`).

The main result is `publication_exactly_once`. It holds without a condition on the run: a publisher
whose claim was reaped and taken by another fails at the comparison with the ref, and a changeset
that was abandoned or published in between fails at the lock. -/

namespace GitSlice

open List Table

/-! ## The queue -/

/-- The queue is **sound**. -/
structure QueueSound (s : State) : Prop where
  sorted : s.queue.Pairwise fun r r' => r.sequence < r'.sequence
  fresh : ∀ r ∈ s.queue, r.sequence < s.nextSequence
  unique : (s.queue.map QueueRow.changeset).Nodup
  status : ∀ r ∈ s.pendingPublish, r.status = .published ↔ r.commit.isSome

variable {s : State} {r : QueueRow}

theorem mem_queue : r ∈ s.queue ↔ ∃ row ∈ s.pendingPublish, row.queueRow = r :=
  mem_map

variable {claim : PendingPublishClaim} {build : PendingPublishBuild} {e : PublishEntry}

theorem BuildSound.mem_queue (hc : ClaimSound s claim) (hb : BuildSound s claim build)
    (he : e ∈ build.entries) : ∃ r ∈ s.queue, r.claimed = e.row :=
  mem_map.mp ((hb.rows.trans hc.rows).subset (mem_map_of_mem he))

variable {entries : List PublishEntry} {s' : State} {now : Time} {rows : List PendingPublish}

theorem commits_resetPendingPublishClaims {ids : List Nat}
    (h : ∀ r ∈ rows, r.status = .published ↔ r.commit.isSome) :
    ∀ r ∈ resetPendingPublishClaims now ids rows, r.status = .published ↔ r.commit.isSome := by
  intro r' hr'
  obtain ⟨r, hr, rfl⟩ := mem_map.mp hr'
  have hold := h r hr
  split
  · rename_i hreset
    rw [hreset.2] at hold
    simpa using hold
  · exact hold

theorem commits_markPendingPublished (h : ∀ r ∈ rows, r.status = .published ↔ r.commit.isSome) :
    ∀ r ∈ markPendingPublished now entries rows, r.status = .published ↔ r.commit.isSome := by
  intro r' hr'
  obtain ⟨r, hr, rfl⟩ := mem_map.mp hr'
  split
  · exact h r hr
  · simp

section

variable (h : QueueSound s)
include h

theorem QueueSound.nodup_sequence : (s.queue.map QueueRow.sequence).Nodup :=
  List.Pairwise.map _ (fun _ _ hlt => Nat.ne_of_lt hlt) h.sorted

theorem QueueSound.mark_cases (hrows : ∀ e ∈ entries, ∃ r ∈ s.queue, r.claimed = e.row)
    (hr : r ∈ s.queue) :
    (r.mark entries = r ∧ ∀ e ∈ entries, e.row ≠ r.claimed) ∨
      ∃ e ∈ entries, e.row = r.claimed ∧ r.mark entries = { r with commit := some e.commitId } := by
  rw [QueueRow.mark]
  split
  · rename_i hnone
    refine .inl ⟨rfl, fun e he heq => ?_⟩
    have := List.find?_eq_none.mp hnone e he
    rw [heq] at this
    simp [QueueRow.claimed] at this
  · rename_i e hfind
    have he := mem_of_find?_eq_some hfind
    have hseq : e.row.sequence = r.sequence := by simpa using List.find?_some hfind
    refine .inr ⟨e, he, ?_, rfl⟩
    obtain ⟨r', hr', hclaimed⟩ := hrows e he
    have hseq' : r'.sequence = r.sequence := by
      rw [← hseq, ← hclaimed]
      rfl
    rw [← hclaimed, inj_on_of_nodup_map h.nodup_sequence hr' hr hseq']

theorem QueueSound.eq_of_changeset_eq {r' : QueueRow} (hr : r ∈ s.queue)
    (hr' : r' ∈ s.queue) (heq : r.changeset = r'.changeset) : r = r' :=
  inj_on_of_nodup_map h.unique hr hr' heq

theorem QueueSound.of_queue_eq (hqueue : s'.queue = s.queue)
    (hnext : s'.nextSequence = s.nextSequence)
    (hstatus : ∀ r ∈ s'.pendingPublish, r.status = .published ↔ r.commit.isSome) :
    QueueSound s' where
  sorted := hqueue ▸ h.sorted
  fresh := hqueue ▸ hnext ▸ h.fresh
  unique := hqueue ▸ h.unique
  status := hstatus

theorem queueSound_publishBatch (now : Time) (build : PendingPublishBuild) :
    QueueSound (publishBatch s now build) where
  sorted := by
    rw [queue_publishBatch, pairwise_map]
    simpa only [sequence_mark] using h.sorted
  fresh := by
    intro r hr
    rw [queue_publishBatch] at hr
    obtain ⟨r', hr', rfl⟩ := mem_map.mp hr
    rw [sequence_mark]
    exact h.fresh r' hr'
  unique := by
    rw [queue_publishBatch, map_map]
    simpa only [Function.comp_def, changeset_mark] using h.unique
  status := commits_resetPendingPublishClaims (commits_markPendingPublished h.status)

end

theorem Admits.ne_of_mem_queue {req : SubmitRequest} {a : Admission} {ps : Patchset}
    (h : Admits s req a ps) (hr : r ∈ s.queue) : r.changeset ≠ req.changeset := by
  obtain ⟨row, hrow, rfl⟩ := mem_queue.mp hr
  exact h.noRow row hrow

variable {a : Action}

theorem Move.queueSound (h : Move s a s') (hs : QueueSound s) : QueueSound s' := by
  cases h with
  | prepares _ _ h =>
    refine hs.of_queue_eq h.queue h.nextSequence ?_
    rw [h.pendingPublish]
    exact hs.status
  | admitted now req a ps h =>
    refine ⟨?_, ?_, ?_, ?_⟩
    · rw [queue_admitted, pairwise_append]
      exact ⟨hs.sorted, pairwise_singleton _ _, fun r hr r' hr' => by
        rw [mem_singleton.mp hr']
        exact hs.fresh r hr⟩
    · intro r hr
      rcases mem_queue_admitted.mp hr with hr | rfl
      · exact Nat.lt_succ_of_lt (hs.fresh r hr)
      · exact Nat.lt_succ_self _
    · rw [queue_admitted, map_append]
      refine List.Nodup.append hs.unique (nodup_singleton _) ?_
      intro k hk hk'
      obtain ⟨r, hr, rfl⟩ := mem_map.mp hk
      exact h.ne_of_mem_queue hr (by simpa using hk')
    · exact forall_mem_append.mpr ⟨hs.status, by simp [newPendingPublish]⟩
  | abandoned | built => exact hs.of_queue_eq rfl rfl hs.status
  | requeued _ _ h =>
    refine hs.of_queue_eq h.queue ?_ ?_
    · obtain ⟨rows, publishers, rfl⟩ := h.others
      rfl
    · intro r' hr'
      obtain ⟨r, hr, hq, hst⟩ := h.rows r' hr'
      have hcommit : r'.commit = r.commit := congrArg QueueRow.commit hq
      have hold := hs.status r hr
      rw [hcommit, ← hold]
      rcases hst with hst | ⟨hst, hst'⟩
      · rw [hst]
      · rw [hst, hst']
        simp
  | claimed p now limit s' claim hidle hclaim =>
    have hqueue := queue_claim hclaim
    obtain ⟨-, -, -, rfl⟩ := claimPendingPublishBatch_some hclaim
    refine hs.of_queue_eq hqueue rfl ?_
    intro r' hr'
    obtain ⟨r, hr, rfl⟩ := mem_map.mp hr'
    have hold := hs.status r hr
    split
    · rename_i hpending
      rw [hpending.2] at hold
      simpa using hold
    · exact hold
  | published p now claim build =>
    exact (queueSound_publishBatch hs now build).of_queue_eq rfl rfl
      (queueSound_publishBatch hs now build).status

theorem queueSound_start (root : Node) : QueueSound (State.start root) where
  sorted := List.Pairwise.nil
  fresh := by simp [State.queue, State.start]
  unique := nodup_nil
  status := by simp [State.start]

/-! ## The chain -/

variable {row : Commit} {k : CommitID}

theorem CommitID.Describes.unique {row' : Commit} (h : k.Describes row) (h' : k.Describes row') :
    row = row' := by
  cases k <;> exact h.trans h'.symm

/-- Commits are written under their own ids. -/
def CommitsDescribed (commits : Table CommitID Commit) : Prop :=
  ∀ k row, commits.get k = some row → k.Describes row

variable {commits : Table CommitID Commit}

theorem described_insertNew (h : CommitsDescribed commits) (hrow : k.Describes row) :
    CommitsDescribed (commits.insertNew k row) ∧ (commits.insertNew k row).get k = some row := by
  cases hget : commits.get k with
  | none =>
    rw [insertNew_of_none hget]
    exact ⟨forall_set h hrow, get_set_self _ _ _⟩
  | some row' =>
    -- the id is taken, and by the same commit
    rw [insertNew_of_some hget, hget, (h k row' hget).unique hrow]
    exact ⟨h, rfl⟩

theorem get_insertPublishedCommits (h : CommitsDescribed commits)
    (hentries : ∀ e ∈ entries, e.commitId.Describes e.commit) :
    CommitsDescribed (insertPublishedCommits commits entries) ∧
      ∀ e ∈ entries, (insertPublishedCommits commits entries).get e.commitId = some e.commit := by
  induction entries generalizing commits with
  | nil => exact ⟨h, by simp⟩
  | cons e rest ih =>
    obtain ⟨hdesc, hget⟩ := described_insertNew h (hentries e mem_cons_self)
    obtain ⟨hall, hrest⟩ := ih hdesc fun e' he' => hentries e' (mem_cons_of_mem e he')
    exact ⟨hall, forall_mem_cons.mpr ⟨extends_insertPublishedCommits _ rest _ _ hget, hrest⟩⟩

variable {parent : CommitID} {n : Node}

theorem MadeOn.describes (h : MadeOn s parent n entries) :
    ∀ e ∈ entries, e.commitId.Describes e.commit := by
  induction entries generalizing parent n with
  | nil => simp
  | cons e rest ih =>
    exact forall_mem_cons.mpr ⟨h.1.describes, ih h.2⟩

/-- How an entry of the log **landed**: its commit has one parent, and its root is what the edits of
the patchset make of the parent's root. -/
structure Landing (s : State) (e : CommitPublished) (parentTree : Node) (row : Commit) (ps : Patchset)
    (edits : List TreeEdit) : Prop where
  parent : s.rootTree e.baseCommit = some parentTree
  commit : s.commits.get e.commit = some row
  parentIds : row.parentIds = [e.baseCommit]
  patchset : s.patchsets.get e.patchset = some ps
  treeEdits : treeEditsFromPatchset s.blobs ps.fileEdits = .ok edits
  root : applyEditSet parentTree edits = .ok row.rootTree

variable {ps : Patchset}

theorem Landing.mono (hg : Grows s s') {e : CommitPublished} {edits : List TreeEdit}
    (h : Landing s e n row ps edits) :
    Landing s' e n row ps edits where
  parent := rootTree_mono hg h.parent
  commit := hg.commits _ _ h.commit
  parentIds := h.parentIds
  patchset := hg.patchsets _ _ h.patchset
  treeEdits := treeEditsFromPatchset_extends hg.blobs h.treeEdits
  root := h.root

theorem MadeOn.landings (hg : Grows s s') (h : MadeOn s parent n entries)
    (hn : s'.rootTree parent = some n)
    (hget : ∀ e ∈ entries, s'.commits.get e.commitId = some e.commit) :
    ∀ e ∈ entries, ∃ n' ps edits, Landing s' e.payload n' e.commit ps edits := by
  induction entries generalizing parent n with
  | nil => simp
  | cons e rest ih =>
    intro e' he'
    rcases mem_cons.mp he' with rfl | he'
    · obtain ⟨ps, edits, hps, hedits, hroot, -⟩ := h.1.tree
      have hbase : e'.payload.baseCommit = parent := h.1.base
      exact ⟨n, ps, edits, hbase ▸ hn, hget e' mem_cons_self, hbase ▸ h.1.parentIds,
        hg.patchsets _ _ hps, treeEditsFromPatchset_extends hg.blobs hedits, hroot⟩
    · have hnext : s'.rootTree e.commitId = some e.commit.rootTree := by
        rw [State.rootTree, hget e mem_cons_self]
        rfl
      exact ih h.2 hnext (fun e'' he'' => hget e'' (mem_cons_of_mem e he'')) e' he'

/-- The chain is **sound**. -/
structure ChainSound (root : Node) (s : State) : Prop where
  described : CommitsDescribed s.commits
  chain : s.ref.history = (s.outbox.map CommitPublished.commit).reverse ++ [.initial root]
  present : ∀ k ∈ s.ref.history, ∃ row, s.commits.get k = some row
  landings : ∀ e ∈ s.outbox, ∃ n row ps edits, Landing s e n row ps edits

variable {root : Node}

theorem ChainSound.of_grows (h : ChainSound root s) (hg : Grows s s') (hc : s'.commits = s.commits)
    (hr : s'.ref = s.ref) (ho : s'.outbox = s.outbox) :
    ChainSound root s' where
  described := hc ▸ h.described
  chain := by rw [hr, ho, h.chain]
  present := by
    rw [hr, hc]
    exact h.present
  landings := by
    rw [ho]
    intro e he
    obtain ⟨n, row, ps, edits, hl⟩ := h.landings e he
    exact ⟨n, row, ps, edits, hl.mono hg⟩

theorem chainSound_publishBatch (h : ChainSound root s) (now : Time) (hclaim : ClaimSound s claim)
    (hbuild : BuildSound s claim build) (href : s.ref = claim.originalCommit) :
    ChainSound root (publishBatch s now build) := by
  have hmade := hbuild.made
  have hg : Grows s (publishBatch s now build) := grows_publishBatch now hmade href
  obtain ⟨hdescribed, hget⟩ := get_insertPublishedCommits h.described hmade.describes
  have hhistory := history_publishBatch now hmade href
  refine ⟨hdescribed, ?_, ?_, ?_⟩
  · rw [hhistory, h.chain, publishBatch, map_append, reverse_append, map_map,
      append_assoc]
    rfl
  · intro k hk
    rw [hhistory, mem_append, mem_reverse] at hk
    rcases hk with hk | hk
    · obtain ⟨e, he, rfl⟩ := mem_map.mp hk
      exact ⟨e.commit, hget e he⟩
    · obtain ⟨row, hrow⟩ := h.present k hk
      exact ⟨row, hg.commits _ _ hrow⟩
  · intro e he
    rcases mem_append.mp he with he | he
    · obtain ⟨n, row, ps, edits, hl⟩ := h.landings e he
      exact ⟨n, row, ps, edits, hl.mono hg⟩
    · obtain ⟨e', he', rfl⟩ := mem_map.mp he
      obtain ⟨n, ps, edits, hl⟩ :=
        hmade.landings hg (rootTree_mono hg hclaim.rootTree) hget e' he'
      exact ⟨n, e'.commit, ps, edits, hl⟩

theorem Move.chainSound (h : Move s a s') (hclaims : ClaimsSound s) (hs : ChainSound root s) :
    ChainSound root s' := by
  have hg := h.grows hclaims
  cases h with
  | prepares _ _ h => exact hs.of_grows hg h.commits h.ref h.outbox
  | admitted | abandoned | built => exact hs.of_grows hg rfl rfl rfl
  | requeued _ _ h =>
    obtain ⟨rows, publishers, rfl⟩ := h.others
    exact hs.of_grows hg rfl rfl rfl
  | claimed p now limit s' claim hidle hclaim =>
    obtain ⟨-, -, -, rfl⟩ := claimPendingPublishBatch_some hclaim
    exact hs.of_grows hg rfl rfl rfl
  | published p now claim build hstage hentries href =>
    obtain ⟨hclaim, hbuild⟩ := hclaims.of_built hstage
    have hsound := chainSound_publishBatch hs now hclaim hbuild href
    exact hsound.of_grows (.of_eq (.refl _) (.refl _) rfl rfl rfl) rfl rfl rfl

theorem chainSound_start (root : Node) : ChainSound root (State.start root) where
  described := forall_set (fun _ _ h => nomatch h) rfl
  chain := rfl
  present := by
    intro k hk
    rw [State.start, CommitID.history, mem_singleton] at hk
    exact ⟨_, by rw [hk]; exact get_set_self _ _ _⟩
  landings := by simp [State.start]

/-! ## Statuses -/

/-- The statuses of changesets say what is in the queue and in the log. -/
structure StatusSound (s : State) : Prop where
  waiting : ∀ r ∈ s.queue, r.commit = none → ∃ c, s.changesets.get r.changeset = some c ∧
    (c.status = .pendingPublish ∨ c.status = .abandoned)
  landed : ∀ r ∈ s.queue, ∀ k, r.commit = some k →
    ∃ e ∈ s.outbox, e.changeset = r.changeset ∧ e.patchset = r.patchset ∧ e.commit = k
  logged : ∀ e ∈ s.outbox, ∃ r ∈ s.queue, r.changeset = e.changeset ∧ r.patchset = e.patchset ∧
    r.commit = some e.commit
  submitted : ∀ e ∈ s.outbox, ∃ c, s.changesets.get e.changeset = some c ∧ c.status = .submitted ∧
    c.commit = some e.commit
  pending : ∀ id c, s.changesets.get id = some c → c.status = .pendingPublish →
    ∃ r ∈ s.queue, r.changeset = id ∧ r.commit = none
  closed : ∀ id c, s.changesets.get id = some c → c.status = .submitted →
    ∃ e ∈ s.outbox, e.changeset = id
  once : (s.outbox.map CommitPublished.changeset).Nodup

variable {id : ChangesetID} {c : Changeset}

theorem get_markChangesetsSubmitted_of_mem (hnd : (entries.map fun e => e.row.changeset).Nodup)
    (he : e ∈ entries) {changesets : Table ChangesetID Changeset}
    (hc : changesets.get e.row.changeset = some c) :
    (markChangesetsSubmitted now entries changesets).get e.row.changeset =
      some { c with status := .submitted, commit := some e.commitId, updatedAt := now } := by
  have hfind := Table.find?_key hnd he
  rw [markChangesetsSubmitted, get_update, hc, Option.map_some, hfind]

theorem get_markChangesetsSubmitted_of_notMem (hid : ∀ e ∈ entries, e.row.changeset ≠ id)
    (changesets : Table ChangesetID Changeset) :
    (markChangesetsSubmitted now entries changesets).get id = changesets.get id := by
  have hfind : entries.find? (fun e => e.row.changeset = id) = none := by
    rw [List.find?_eq_none]
    intro e he
    simpa using hid e he
  rw [markChangesetsSubmitted, get_update, hfind]
  exact Option.map_id'

/-- What publishing a batch does to the changesets of its rows and to the others. -/
structure BatchLocked (s : State) (entries : List PublishEntry) : Prop where
  rows : ∀ e ∈ entries, ∃ r ∈ s.queue, r.claimed = e.row
  nodup : (entries.map fun e => e.row.changeset).Nodup
  waits : ∀ e ∈ entries, ∃ c, s.changesets.get e.row.changeset = some c ∧ c.status = .pendingPublish

theorem batchLocked (hqueue : QueueSound s) (hclaim : ClaimSound s claim)
    (hbuild : BuildSound s claim build)
    (hlock : lockPendingPublishChangesets s build.entries = .ok ()) :
    BatchLocked s build.entries where
  rows := fun _ he => hbuild.mem_queue hclaim he
  nodup := by
    have hsub := ((hbuild.rows.trans hclaim.rows).map ClaimedRow.changeset)
    rw [map_map, map_map] at hsub
    exact hqueue.unique.sublist hsub
  waits := by
    intro e he
    obtain ⟨c, hc, hst, -⟩ := lockPendingPublishChangesets_ok hlock e he
    exact ⟨c, hc, hst⟩

theorem BatchLocked.get_cases (h : BatchLocked s build.entries)
    (hc : (publishBatch s now build).changesets.get id = some c) :
    (∃ e ∈ build.entries, e.row.changeset = id ∧ ∃ c₀, s.changesets.get id = some c₀ ∧
      c₀.status = .pendingPublish ∧
        c = { c₀ with status := .submitted, commit := some e.commitId, updatedAt := now }) ∨
      (∀ e ∈ build.entries, e.row.changeset ≠ id) ∧ s.changesets.get id = some c := by
  by_cases hid : ∃ e ∈ build.entries, e.row.changeset = id
  · obtain ⟨e, he, rfl⟩ := hid
    obtain ⟨c₀, hc₀, hst₀⟩ := h.waits e he
    have hmarked := (get_markChangesetsSubmitted_of_mem h.nodup he hc₀).symm.trans hc
    exact .inl ⟨e, he, rfl, c₀, hc₀, hst₀, (Option.some.inj hmarked).symm⟩
  · have hother : ∀ e ∈ build.entries, e.row.changeset ≠ id := fun e he heq => hid ⟨e, he, heq⟩
    exact .inr ⟨hother, (get_markChangesetsSubmitted_of_notMem hother _).symm.trans hc⟩

/-- The rows after a batch: those it leaves, and those it lands. -/
theorem BatchLocked.mem_queue (h : BatchLocked s build.entries) (hqueue : QueueSound s)
    (hr : r ∈ (publishBatch s now build).queue) :
    (r ∈ s.queue ∧ ∀ e ∈ build.entries, e.row ≠ r.claimed) ∨
      ∃ e ∈ build.entries, ∃ r₀ ∈ s.queue, e.row = r₀.claimed ∧
        r = { r₀ with commit := some e.commitId } := by
  rw [queue_publishBatch] at hr
  obtain ⟨r₀, hr₀, rfl⟩ := mem_map.mp hr
  obtain ⟨hmark, hnot⟩ | ⟨e, he, hclaimed, hmark⟩ := hqueue.mark_cases h.rows hr₀
  · rw [hmark]
    exact .inl ⟨hr₀, hnot⟩
  · exact .inr ⟨e, he, r₀, hr₀, hclaimed, hmark⟩

section

variable (h : StatusSound s)
include h

/-- A step keeps the statuses sound when it only changes other things about changesets. -/
theorem StatusSound.of_kept (hq : s'.queue = s.queue) (ho : s'.outbox = s.outbox)
    (hprep : OnlyPrepared s.changesets s'.changesets) : StatusSound s' where
  waiting := by
    intro r hr hnone
    obtain ⟨c, hc, hst⟩ := h.waiting r (hq ▸ hr) hnone
    obtain ⟨c', hc', hk⟩ := hprep.kept _ c hc
    exact ⟨c', hc', by rw [hk.status]; exact hst⟩
  landed := by
    rw [hq, ho]
    exact h.landed
  logged := by
    rw [hq, ho]
    exact h.logged
  submitted := by
    intro e he
    obtain ⟨c, hc, hst, hcommit⟩ := h.submitted e (ho ▸ he)
    obtain ⟨c', hc', hk⟩ := hprep.kept _ c hc
    exact ⟨c', hc', hk.status.trans hst, hk.commit.trans hcommit⟩
  pending := by
    intro id c' hc' hst
    rw [hq]
    obtain ⟨c, hc, hk⟩ | ⟨-, hdraft, -⟩ := hprep.fresh id c' hc'
    · exact h.pending id c hc (hk.status ▸ hst)
    · rw [hdraft] at hst
      cases hst
  closed := by
    intro id c' hc' hst
    rw [ho]
    obtain ⟨c, hc, hk⟩ | ⟨-, hdraft, -⟩ := hprep.fresh id c' hc'
    · exact h.closed id c hc (hk.status ▸ hst)
    · rw [hdraft] at hst
      cases hst
  once := ho ▸ h.once

theorem StatusSound.of_changesets (hq : s'.queue = s.queue)
    (ho : s'.outbox = s.outbox) (hc : s'.changesets = s.changesets) : StatusSound s' :=
  h.of_kept hq ho (hc ▸ .refl)

theorem StatusSound.not_logged (hc : s.changesets.get id = some c) (hst : c.status ≠ .submitted) :
    ∀ e ∈ s.outbox, e.changeset ≠ id := by
  rintro e he rfl
  obtain ⟨c', hc', hst', -⟩ := h.submitted e he
  rw [hc] at hc'
  cases hc'
  exact hst hst'

variable {req : SubmitRequest} {a : Admission}

/-- What is admitted was a draft. -/
theorem StatusSound.draft_of_admits (ha : Admits s req a ps) : a.changeset.status = .draft := by
  obtain ⟨hc, hab, hpend, hsub, -⟩ := openForSubmit_ok ha.opened
  cases hst : a.changeset.status with
  | draft => rfl
  | pendingPublish => exact absurd hst hpend
  | abandoned => exact absurd hst hab
  | submitted =>
    obtain ⟨e, he, heq⟩ := h.closed _ _ hc hst
    obtain ⟨c, hc', -, hcommit⟩ := h.submitted e he
    rw [heq, hc] at hc'
    cases hc'
    rw [hsub hst] at hcommit
    cases hcommit

omit h in
theorem get_admitted_of_ne {k : ChangesetID} (hk : k ≠ id) :
    (admitted s now id a).changesets.get k = s.changesets.get k :=
  get_set_of_ne _ _ hk

theorem statusSound_admitted (ha : Admits s req a ps) :
    StatusSound (admitted s now req.changeset a) := by
  obtain ⟨hc, -⟩ := openForSubmit_ok ha.opened
  have hlog := h.not_logged hc (by rw [h.draft_of_admits ha]; decide)
  refine ⟨?_, ?_, ?_, ?_, ?_, ?_, h.once⟩
  · intro r hr hnone
    rcases mem_queue_admitted.mp hr with hr | rfl
    · rw [get_admitted_of_ne (ha.ne_of_mem_queue hr)]
      exact h.waiting r hr hnone
    · exact ⟨_, get_set_self _ _ _, .inl rfl⟩
  · intro r hr k hk
    rcases mem_queue_admitted.mp hr with hr | rfl
    · exact h.landed r hr k hk
    · cases hk
  · intro e he
    obtain ⟨r, hr, hrow⟩ := h.logged e he
    exact ⟨r, mem_queue_admitted.mpr (.inl hr), hrow⟩
  · intro e he
    rw [get_admitted_of_ne (hlog e he)]
    exact h.submitted e he
  · intro id c hcid hst
    rcases get_set_cases hcid with ⟨rfl, -⟩ | ⟨-, hcid⟩
    · exact ⟨_, mem_queue_admitted.mpr (.inr rfl), rfl, rfl⟩
    · obtain ⟨r, hr, hrow⟩ := h.pending id c hcid hst
      exact ⟨r, mem_queue_admitted.mpr (.inl hr), hrow⟩
  · intro id c hcid hst
    rcases get_set_cases hcid with ⟨-, rfl⟩ | ⟨-, hcid⟩
    · cases hst
    · exact h.closed id c hcid hst

theorem statusSound_abandoned (hc : s.changesets.get id = some c) (hsub : c.status ≠ .submitted) :
    StatusSound { s with
      changesets := s.changesets.set id { c with status := .abandoned, updatedAt := now } } := by
  have hlog := h.not_logged hc hsub
  refine ⟨?_, h.landed, h.logged, ?_, ?_, ?_, h.once⟩
  · intro r hr hnone
    obtain ⟨d, hd, hst⟩ := h.waiting r hr hnone
    exact exists_get_set hd hst fun _ _ => .inr rfl
  · intro e he
    rw [get_set_of_ne _ _ (hlog e he)]
    exact h.submitted e he
  · intro k d hd hst
    rcases get_set_cases hd with ⟨-, rfl⟩ | ⟨-, hd⟩
    · cases hst
    · exact h.pending k d hd hst
  · intro k d hd hst
    rcases get_set_cases hd with ⟨-, rfl⟩ | ⟨-, hd⟩
    · cases hst
    · exact h.closed k d hd hst

theorem BatchLocked.commit_none (hb : BatchLocked s entries) (he : e ∈ entries)
    (hr : r ∈ s.queue) (hrow : e.row = r.claimed) : r.commit = none := by
  obtain ⟨c, hc, hst⟩ := hb.waits e he
  rcases hcommit : r.commit with _ | k
  · rfl
  · obtain ⟨e', he', heq, -⟩ := h.landed r hr k hcommit
    rw [hrow] at hc
    have hsub : c.status ≠ .submitted := by
      rw [hst]
      decide
    exact absurd heq (h.not_logged hc hsub e' he')

theorem statusSound_publishBatch (hqueue : QueueSound s) (now : Time)
    (hb : BatchLocked s build.entries) : StatusSound (publishBatch s now build) := by
  -- a changeset of the batch is not in the log, and its row is the entry's
  have hlog : ∀ e ∈ build.entries, ∀ e' ∈ s.outbox, e'.changeset ≠ e.row.changeset := by
    intro e he
    obtain ⟨c, hc, hst⟩ := hb.waits e he
    exact h.not_logged hc (by rw [hst]; decide)
  have hrow : ∀ e ∈ build.entries, ∀ r ∈ s.queue, e.row.changeset = r.changeset →
      e.row = r.claimed := by
    intro e he r hr heq
    obtain ⟨r', hr', hclaimed⟩ := hb.rows e he
    have hsame : r'.changeset = r.changeset := by
      rw [← heq, ← hclaimed]
      rfl
    rw [← hclaimed, hqueue.eq_of_changeset_eq hr' hr hsame]
  have hmem : ∀ r ∈ s.queue, r.mark build.entries ∈ (publishBatch s now build).queue := by
    intro r hr
    rw [queue_publishBatch]
    exact mem_map_of_mem hr
  refine ⟨?_, ?_, ?_, ?_, ?_, ?_, ?_⟩
  · intro r hr hnone
    obtain ⟨hr, hnot⟩ | ⟨e, -, r₀, -, -, rfl⟩ := hb.mem_queue hqueue hr
    · have hother : ∀ e ∈ build.entries, e.row.changeset ≠ r.changeset := fun e he heq =>
        hnot e he (hrow e he r hr heq)
      obtain ⟨c, hc, hst⟩ := h.waiting r hr hnone
      exact ⟨c, (get_markChangesetsSubmitted_of_notMem hother _).trans hc, hst⟩
    · cases hnone
  · intro r hr k hk
    obtain ⟨hr, -⟩ | ⟨e, he, r₀, -, hclaimed, rfl⟩ := hb.mem_queue hqueue hr
    · obtain ⟨e, he, hfacts⟩ := h.landed r hr k hk
      exact ⟨e, mem_append_left _ he, hfacts⟩
    · cases hk
      refine ⟨e.payload, mem_append_right _ (mem_map_of_mem he), ?_, ?_, rfl⟩
      · exact congrArg ClaimedRow.changeset hclaimed
      · exact congrArg ClaimedRow.patchset hclaimed
  · intro e' he'
    rcases mem_append.mp he' with he' | he'
    · obtain ⟨r, hr, hcs, hps, hcommit⟩ := h.logged e' he'
      refine ⟨r.mark build.entries, hmem r hr, ?_⟩
      obtain ⟨hmark, -⟩ | ⟨e, he, hclaimed, -⟩ := hqueue.mark_cases hb.rows hr
      · rw [hmark]
        exact ⟨hcs, hps, hcommit⟩
      · rw [hb.commit_none h he hr hclaimed] at hcommit
        cases hcommit
    · obtain ⟨e, he, rfl⟩ := mem_map.mp he'
      obtain ⟨r, hr, hclaimed⟩ := hb.rows e he
      refine ⟨r.mark build.entries, hmem r hr, ?_⟩
      obtain ⟨-, hnot⟩ | ⟨e₂, he₂, hclaimed₂, hmark⟩ := hqueue.mark_cases hb.rows hr
      · exact absurd hclaimed.symm (hnot e he)
      · have hsame : e₂ = e := inj_on_of_nodup_map hb.nodup he₂ he
          (congrArg ClaimedRow.changeset (hclaimed₂.trans hclaimed))
        rw [hmark, hsame]
        exact ⟨congrArg ClaimedRow.changeset hclaimed, congrArg ClaimedRow.patchset hclaimed, rfl⟩
  · intro e' he'
    rcases mem_append.mp he' with he' | he'
    · have hother : ∀ e ∈ build.entries, e.row.changeset ≠ e'.changeset := fun e he heq =>
        hlog e he e' he' heq.symm
      obtain ⟨c, hc, hfacts⟩ := h.submitted e' he'
      exact ⟨c, (get_markChangesetsSubmitted_of_notMem hother _).trans hc, hfacts⟩
    · obtain ⟨e, he, rfl⟩ := mem_map.mp he'
      obtain ⟨c, hc, -⟩ := hb.waits e he
      exact ⟨_, get_markChangesetsSubmitted_of_mem hb.nodup he hc, rfl, rfl⟩
  · intro id c hc hst
    obtain ⟨e, he, rfl, c₀, -, -, rfl⟩ | ⟨hother, hold⟩ := hb.get_cases hc
    · cases hst
    · obtain ⟨r, hr, heq, hnone⟩ := h.pending id c hold hst
      refine ⟨r.mark build.entries, hmem r hr, ?_⟩
      obtain ⟨hmark, -⟩ | ⟨e, he, hclaimed, -⟩ := hqueue.mark_cases hb.rows hr
      · rw [hmark]
        exact ⟨heq, hnone⟩
      · exact absurd ((congrArg ClaimedRow.changeset hclaimed).trans heq) (hother e he)
  · intro id c hc hst
    obtain ⟨e, he, rfl, -⟩ | ⟨-, hold⟩ := hb.get_cases hc
    · exact ⟨e.payload, mem_append_right _ (mem_map_of_mem he), rfl⟩
    · obtain ⟨e, he, heq⟩ := h.closed id c hold hst
      exact ⟨e, mem_append_left _ he, heq⟩
  · have hmap : (build.entries.map PublishEntry.payload).map CommitPublished.changeset =
        build.entries.map fun e => e.row.changeset := by
      rw [map_map]
      rfl
    rw [publishBatch, map_append, hmap]
    refine List.Nodup.append h.once hb.nodup ?_
    intro k hk hk'
    obtain ⟨e', he', rfl⟩ := mem_map.mp hk
    obtain ⟨e, he, heq⟩ := mem_map.mp hk'
    exact hlog e he e' he' heq.symm

end

theorem Move.statusSound (h : Move s a s') (hqueue : QueueSound s) (hclaims : ClaimsSound s)
    (hs : StatusSound s) : StatusSound s' := by
  cases h with
  | prepares _ _ h => exact hs.of_kept h.queue h.outbox h.onlyPrepared
  | admitted now req a ps h => exact statusSound_admitted hs h
  | abandoned now id c hc hchild hsub => exact statusSound_abandoned hs hc hsub
  | requeued _ _ h =>
    have hq := h.queue
    obtain ⟨rows, publishers, rfl⟩ := h.others
    exact hs.of_changesets hq rfl rfl
  | claimed p now limit s' claim hidle hclaim =>
    have hq := queue_claim hclaim
    obtain ⟨-, -, -, rfl⟩ := claimPendingPublishBatch_some hclaim
    exact hs.of_changesets hq rfl rfl
  | built => exact hs.of_changesets rfl rfl rfl
  | published p now claim build hstage hentries href hlock =>
    obtain ⟨hclaim, hbuild⟩ := hclaims.of_built hstage
    have hb := batchLocked hqueue hclaim hbuild hlock
    exact (statusSound_publishBatch hs hqueue now hb).of_changesets rfl rfl rfl

theorem statusSound_start (root : Node) : StatusSound (State.start root) where
  waiting := by simp [State.queue, State.start]
  landed := by simp [State.queue, State.start]
  logged := by simp [State.start]
  submitted := by simp [State.start]
  pending := by simp [State.start]
  closed := by simp [State.start]
  once := nodup_nil

/-! ## Every run -/

/-- The invariants of the publication, together. -/
structure Sound (root : Node) (s : State) : Prop where
  queue : QueueSound s
  claims : ClaimsSound s
  chain : ChainSound root s
  status : StatusSound s

theorem sound_start (root : Node) : Sound root (State.start root) :=
  ⟨queueSound_start root, claimsSound_start root, chainSound_start root, statusSound_start root⟩

theorem sound_step (h : Sound root s) (a : Action) : Sound root (step s a) :=
  have hm := step_move s a
  ⟨hm.queueSound h.queue, hm.claimsSound h.claims, hm.chainSound h.claims h.chain,
    hm.statusSound h.queue h.claims h.status⟩

theorem sound_run (root : Node) (as : List Action) :
    Sound root (Machine.run step (State.start root) as) :=
  Machine.run_invariant (Sound root) (fun _ a h => sound_step h a) (sound_start root) as

/-- The commits from one down to the first, each with the next as its only parent. -/
inductive CommitChain (commits : Table CommitID Commit) : CommitID → List CommitID → Prop where
  | first (k : CommitID) (row : Commit) (hget : commits.get k = some row) (hparents : row.parentIds = []) :
    CommitChain commits k [k]
  | next (k parent : CommitID) (row : Commit) (l : List CommitID) (hget : commits.get k = some row)
    (hparents : row.parentIds = [parent]) (hl : CommitChain commits parent l) :
    CommitChain commits k (k :: l)

theorem commitChain_history (hdescribed : CommitsDescribed commits) {c : CommitID}
    (hpresent : ∀ k ∈ c.history, ∃ row, commits.get k = some row) :
    CommitChain commits c c.history := by
  obtain ⟨row, hrow⟩ := hpresent c c.self_mem_history
  have hdesc := hdescribed c row hrow
  induction c generalizing row with
  | initial =>
    exact .first _ row hrow (by rw [hdesc]; rfl)
  | child parent root author message createdAt changedPaths ih =>
    have hpresent' : ∀ k ∈ parent.history, ∃ row, commits.get k = some row := fun k hk =>
      hpresent k (mem_cons_of_mem _ hk)
    obtain ⟨row', hrow'⟩ := hpresent' parent parent.self_mem_history
    refine .next _ parent row _ hrow (by rw [hdesc]) ?_
    exact ih hpresent' row' hrow' (hdescribed parent row' hrow')

/-- The entries of the log for a changeset. -/
def State.logFor (s : State) (id : ChangesetID) : List CommitPublished :=
  s.outbox.filter fun e => e.changeset = id

theorem mem_logFor {e : CommitPublished} : e ∈ s.logFor id ↔ e ∈ s.outbox ∧ e.changeset = id := by
  simp [State.logFor]

theorem logFor_eq (h : StatusSound s) {e : CommitPublished} (he : e ∈ s.outbox) :
    s.logFor e.changeset = [e] := by
  have hnodup : (s.logFor e.changeset).Nodup := (List.Nodup.of_map _ h.once).filter _
  refine perm_singleton.mp ((perm_ext_iff_of_nodup hnodup (nodup_singleton e)).mpr fun e' => ?_)
  rw [mem_logFor, mem_singleton]
  constructor
  · rintro ⟨he', heq⟩
    exact inj_on_of_nodup_map h.once he' he heq
  · rintro rfl
    exact ⟨he, rfl⟩

/-- **Exactly-once, linear publication**, in every run: the ref's commits are one chain, the log; a
row is in the log at most once, with the commit it names; a changeset is submitted exactly when one
entry of the log is for it and it names that commit; none is for an abandoned one; a finalize either
fails and leaves ref, commits, path heads and changesets alone, or adds a batch whose first commit
has the ref's commit as its only parent. -/
theorem publication_exactly_once (root : Node) (as : List Action) :
    let s := Machine.run step (State.start root) as
    CommitChain s.commits s.ref ((s.outbox.map CommitPublished.commit).reverse ++ [.initial root]) ∧
    (∀ r ∈ s.pendingPublish, (s.logFor r.changeset).length ≤ 1 ∧
      ∀ e ∈ s.logFor r.changeset, e.patchset = r.patchset ∧ r.commit = some e.commit) ∧
    (∀ id c, s.changesets.get id = some c →
      (c.status = .submitted ↔ ∃ e, s.logFor id = [e] ∧ c.commit = some e.commit) ∧
      (c.status = .abandoned → s.logFor id = [])) ∧
    ∀ p now claim build, s.publishers p = .built claim build →
      let s' := step s (.finalize p now)
      ((finalizePendingPublishBatch s now claim build).2 ≠ .ok () →
        s'.ref = s.ref ∧ s'.commits = s.commits ∧ s'.pathHeads = s.pathHeads ∧
          s'.changesets = s.changesets) ∧
      (s'.ref ≠ s.ref → ∃ e rest row, s'.outbox = s.outbox ++ e :: rest ∧
        s'.commits.get e.commit = some row ∧ row.parentIds = [s.ref]) := by
  intro s
  have hs : Sound root s := sound_run root as
  refine ⟨?_, ?_, ?_, ?_⟩
  · rw [← hs.chain.chain]
    exact commitChain_history hs.chain.described hs.chain.present
  · intro r hr
    have hq : r.queueRow ∈ s.queue := mem_map_of_mem hr
    rcases hlog : s.logFor r.changeset with _ | ⟨e, rest⟩
    · simp
    · obtain ⟨he, heq⟩ := mem_logFor.mp (hlog ▸ mem_cons_self : e ∈ s.logFor r.changeset)
      rw [← heq, logFor_eq hs.status he] at hlog
      obtain ⟨r', hr', hcs, hps, hcommit⟩ := hs.status.logged e he
      have hsame : r' = r.queueRow := hs.queue.eq_of_changeset_eq hr' hq (hcs.trans heq)
      rw [← hlog]
      refine ⟨Nat.le_refl 1, fun e' he' => ?_⟩
      rw [mem_singleton.mp he', ← hps, ← hcommit, hsame]
      exact ⟨rfl, rfl⟩
  · intro id c hc
    constructor
    · constructor
      · intro hst
        obtain ⟨e, he, rfl⟩ := hs.status.closed id c hc hst
        obtain ⟨c', hc', -, hcommit⟩ := hs.status.submitted e he
        rw [hc] at hc'
        cases hc'
        exact ⟨e, logFor_eq hs.status he, hcommit⟩
      · rintro ⟨e, hlog, -⟩
        obtain ⟨he, heq⟩ := mem_logFor.mp (hlog ▸ mem_cons_self : e ∈ s.logFor id)
        obtain ⟨c', hc', hst, -⟩ := hs.status.submitted e he
        rw [heq, hc] at hc'
        cases hc'
        exact hst
    · intro hst
      rw [State.logFor, filter_eq_nil_iff]
      intro e he
      simpa using hs.status.not_logged hc (by rw [hst]; decide) e he
  · intro p now claim build hstage s'
    have hs' : s' = finalizeStep s p now := rfl
    unfold finalizeStep at hs'
    rw [hstage] at hs'
    dsimp only at hs'
    obtain ⟨e, h⟩ | ⟨r, h⟩ | ⟨hentries, href, -, h⟩ :=
      finalizePendingPublishBatch_cases s now claim build
    · rw [h] at hs' ⊢
      rw [hs']
      exact ⟨fun _ => ⟨rfl, rfl, rfl, rfl⟩, absurd rfl⟩
    · rw [h] at hs' ⊢
      rcases r with e | ⟨⟩
      · rw [hs']
        exact ⟨fun _ => ⟨rfl, rfl, rfl, rfl⟩, absurd rfl⟩
      · rw [hs']
        exact ⟨absurd rfl, absurd rfl⟩
    · rw [h] at hs' ⊢
      rw [hs']
      refine ⟨absurd rfl, fun _ => ?_⟩
      have hmade := (hs.claims.builds p claim build hstage).made
      have hget := (get_insertPublishedCommits hs.chain.described hmade.describes).2
      rcases hlist : build.entries with _ | ⟨e, rest⟩
      · exact absurd hlist hentries
      · refine ⟨e.payload, rest.map PublishEntry.payload, e.commit, ?_, ?_, ?_⟩
        · show s.outbox ++ build.entries.map PublishEntry.payload = _
          rw [hlist]
          rfl
        · exact hget e (hlist ▸ mem_cons_self)
        · rw [hlist] at hmade
          rw [href]
          exact hmade.1.parentIds

end GitSlice
