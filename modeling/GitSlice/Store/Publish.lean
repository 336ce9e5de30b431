import GitSlice.Store.Submit

/-! # Publishing
`PublishPending` (`changeset_publish.go`, `changeset_publish_tx.go`) takes the admitted patchsets to
the ref in three transactions: claim the first waiting rows, build a chain of commits from the ref's
commit as it was at the claim, and finalize, which compares the ref with that commit and moves it. A
publisher that fails releases its rows; one that stops leaves them to be reaped.

The claim orders rows by sequence, which is the order of `State.pendingPublish`. -/

namespace GitSlice

/-! ## Claims -/

/-- `resetPendingPublishClaimsTx`. -/
def resetPendingPublishClaims (now : Time) (ids : List Nat) (rows : List PendingPublish) :
    List PendingPublish :=
  rows.map fun r =>
    if r.sequence ∈ ids ∧ r.status = .publishing then { r with
      status := .pending, updatedAt := now }
    else r

/-- After it a claim is stale. -/
def pendingPublishClaimTimeout : Time := 60 * 1000000

/-- Stale claims are given back. -/
def reapStalePendingPublishClaims (s : State) (now : Time) : State :=
  { s with
    pendingPublish := s.pendingPublish.map fun r =>
      if r.status = .publishing ∧ r.updatedAt + pendingPublishClaimTimeout < now then
        { r with status := .pending, updatedAt := now }
      else r }

/-- A row as a claim keeps it. -/
def PendingPublish.claimed (r : PendingPublish) : ClaimedRow :=
  ⟨r.sequence, r.changeset, r.patchset⟩

/-- The rows a claim takes: the first that wait. A limit of 0 stands for 64. -/
def claimedRows (s : State) (limit : Nat) : List ClaimedRow :=
  ((s.pendingPublish.filter fun r => r.status = .pending).take
    (if limit = 0 then 64 else limit)).map PendingPublish.claimed

/-- The sequence numbers of a claim's rows. -/
def PendingPublishClaim.ids (claim : PendingPublishClaim) : List Nat :=
  claim.rows.map ClaimedRow.sequence

/-- `claimPendingPublishBatch`, or nothing when no row waits or the ref's commit is not there. -/
def claimPendingPublishBatch (s : State) (now : Time) (limit : Nat) :
    Option (State × PendingPublishClaim) :=
  if claimedRows s limit = [] then none
  else
    match s.rootTree s.ref with
    | none => none
    | some root =>
      let claim : PendingPublishClaim := ⟨claimedRows s limit, s.ref, root⟩
      some ({ s with
        pendingPublish := s.pendingPublish.map fun r =>
          if r.sequence ∈ claim.ids ∧ r.status = .pending then
            { r with status := .publishing, updatedAt := now }
          else r }, claim)

variable {s : State}

theorem claimPendingPublishBatch_some {s' : State} {now : Time} {limit : Nat}
    {claim : PendingPublishClaim} (h : claimPendingPublishBatch s now limit = some (s', claim)) :
    claim.rows = claimedRows s limit ∧ claim.originalCommit = s.ref ∧
      s.rootTree s.ref = some claim.rootTree ∧
      s' = { s with
        pendingPublish := s.pendingPublish.map fun r =>
          if r.sequence ∈ claim.ids ∧ r.status = .pending then
            { r with status := .publishing, updatedAt := now }
          else r } := by
  rw [claimPendingPublishBatch] at h
  split at h
  · cases h
  · split at h
    · cases h
    · rename_i root hroot
      cases h
      exact ⟨rfl, rfl, hroot, rfl⟩

/-! ## Building -/

/-- `publishableEntry`: a row whose changeset waits, with what is read for it. -/
structure Publishable where
  row : ClaimedRow
  changeset : Changeset
  patchset : Patchset
  /-- The patchset's edits of the tree. -/
  treeEdits : List TreeEdit
deriving DecidableEq

/-- The body of the loop over the claimed rows; nothing for a row that is skipped. -/
def publishableRow (s : State) (row : ClaimedRow) : Except StoreError (Option Publishable) :=
  match s.changesets.get row.changeset with
  | none => .error .notFound
  | some c =>
    if c.status = .pendingPublish then
      match s.patchsets.get row.patchset with
      | none => .error .notFound
      | some ps => do
        let treeEdits ← treeEditsFromPatchset s.blobs ps.fileEdits
        return some ⟨row, c, ps, treeEdits⟩
    else .ok none

/-- The loop over the claimed rows: those to publish, and the sequence numbers of those skipped. -/
def publishableRows (s : State) : List ClaimedRow → Except StoreError (List Publishable × List Nat)
  | [] => .ok ([], [])
  | row :: rest => do
    let entry ← publishableRow s row
    let (entries, skipped) ← publishableRows s rest
    match entry with
    | some entry => .ok (entry :: entries, skipped)
    | none => .ok (entries, row.sequence :: skipped)

/-- The message of the commit made for a row. -/
def publishMessage (p : Publishable) : String :=
  let message := commitMessage p.changeset.title p.changeset.description
  if message = "" then "Submit " ++ shortChangesetID p.row.changeset else message

/-- The commit made for a row. -/
def publishedCommit (parent : CommitID) (createdAt : Time) (p : Publishable) (root : Node) :
    Commit where
  parentIds := [parent]
  rootTree := root
  author := p.changeset.author
  message := publishMessage p
  createdAt := createdAt
  changedPaths := p.patchset.changedPaths

/-- `objectid.CommitID` of the commit made for a row. -/
def publishedCommitID (parent : CommitID) (createdAt : Time) (p : Publishable) (root : Node) :
    CommitID :=
  .child parent root p.changeset.author (publishMessage p) createdAt p.patchset.changedPaths

/-- What a build adds for one row. -/
def publishEntry (parent : CommitID) (createdAt : Time) (p : Publishable) (root : Node)
    (mutations : List PathHeadMutation) : PublishEntry where
  row := p.row
  commitId := publishedCommitID parent createdAt p root
  commit := publishedCommit parent createdAt p root
  baseCommit := parent
  mutations := mutations
  observedUpdatedAt := p.changeset.updatedAt

/-- The loop over the publishable rows with their roots. Each commit is the parent of the next and a
microsecond older. -/
def publishEntries :
    CommitID → Time → List (Publishable × Node) → Except StoreError (List PublishEntry)
  | _, _, [] => .ok []
  | parent, createdAt, (p, root) :: rest =>
    match pathHeadMutationsForPatchsetRoot root p.patchset.fileEdits with
    | none => .error .overflow
    | some mutations => do
      let entries ← publishEntries (publishedCommitID parent createdAt p root) (createdAt + 1) rest
      return publishEntry parent createdAt p root mutations :: entries

/-- The commits of a claim, without a write. -/
def buildPendingPublishBatch (s : State) (now : Time) (claim : PendingPublishClaim) :
    Except StoreError PendingPublishBuild := do
  let (publishable, skipped) ← publishableRows s claim.rows
  let roots ← fromTree (applyEditChain claim.rootTree (publishable.map Publishable.treeEdits))
  let entries ← publishEntries claim.originalCommit now (publishable.zip roots)
  return ⟨entries, skipped⟩

/-! ### What a build has read -/

/-- What is read for a row that is published. -/
structure Publishable.ReadIn (s : State) (p : Publishable) : Prop where
  changeset : s.changesets.get p.row.changeset = some p.changeset
  waits : p.changeset.status = .pendingPublish
  patchset : s.patchsets.get p.row.patchset = some p.patchset
  treeEdits : treeEditsFromPatchset s.blobs p.patchset.fileEdits = .ok p.treeEdits

variable {row : ClaimedRow}

theorem publishableRow_ok {entry : Option Publishable} (h : publishableRow s row = .ok entry) :
    (∀ p ∈ entry, p.row = row ∧ p.ReadIn s) ∧ (entry = none →
      ∃ c, s.changesets.get row.changeset = some c ∧ c.status ≠ .pendingPublish) := by
  rw [publishableRow] at h
  split at h
  · cases h
  · rename_i c hc
    split_ifs at h with hstatus
    · split at h
      · cases h
      · rename_i ps hps
        obtain ⟨treeEdits, hedits, h⟩ := Except.bind_eq_ok.mp h
        cases h
        refine ⟨?_, by simp⟩
        rintro p ⟨⟩
        exact ⟨rfl, hc, hstatus, hps, hedits⟩
    · cases h
      exact ⟨by simp, fun _ => ⟨c, hc, hstatus⟩⟩

/-- The rows to publish are among those claimed, in their order, and the others are skipped because
their changeset does not wait. -/
theorem publishableRows_ok {rows : List ClaimedRow} {entries : List Publishable}
    {skipped : List Nat} (h : publishableRows s rows = .ok (entries, skipped)) :
    (entries.map Publishable.row).Sublist rows ∧ (∀ p ∈ entries, p.ReadIn s) ∧
      ∀ row ∈ rows, row ∈ entries.map Publishable.row ∨
        ∃ c, s.changesets.get row.changeset = some c ∧ c.status ≠ .pendingPublish := by
  induction rows generalizing entries skipped with
  | nil =>
    cases h
    exact ⟨.slnil, by simp, by simp⟩
  | cons row rows ih =>
    obtain ⟨entry, hentry, h⟩ := Except.bind_eq_ok.mp h
    obtain ⟨⟨entries', skipped'⟩, hrest, h⟩ := Except.bind_eq_ok.mp h
    obtain ⟨hsub, hread, hcover⟩ := ih hrest
    rcases entry with _ | p
    · cases h
      refine ⟨hsub.cons row, hread, List.forall_mem_cons.mpr ⟨.inr ?_, hcover⟩⟩
      exact (publishableRow_ok hentry).2 rfl
    · cases h
      obtain ⟨rfl, hp⟩ := (publishableRow_ok hentry).1 p rfl
      refine ⟨hsub.cons_cons _, List.forall_mem_cons.mpr ⟨hp, hread⟩,
        List.forall_mem_cons.mpr ⟨.inl List.mem_cons_self, fun r hr => ?_⟩⟩
      exact (hcover r hr).imp_left (List.mem_cons_of_mem _)

theorem fromTree_ok {α : Type} {x : Except TreeError α} {a : α} (h : fromTree x = .ok a) :
    x = .ok a := by
  rcases x with e | a'
  · cases e <;> cases h
  · cases h
    rfl

/-! ## Finalizing -/

/-- The changeset of an entry is not waiting any more, or was touched since the build. -/
def changesetMoved (s : State) (e : PublishEntry) : Bool :=
  match s.changesets.get e.row.changeset with
  | none => false
  | some c => c.status != .pendingPublish || c.updatedAt != e.observedUpdatedAt

/-- `lockPendingPublishChangesetsTx`. -/
def lockPendingPublishChangesets (s : State) (entries : List PublishEntry) :
    Except StoreError Unit :=
  if entries.any (changesetMoved s) then .error (.conflict "")
  else if entries.any fun e => (s.changesets.get e.row.changeset).isNone then .error .notFound
  else .ok ()

theorem lockPendingPublishChangesets_ok {entries : List PublishEntry}
    (h : lockPendingPublishChangesets s entries = .ok ()) : ∀ e ∈ entries,
      ∃ c, s.changesets.get e.row.changeset = some c ∧ c.status = .pendingPublish ∧
        c.updatedAt = e.observedUpdatedAt := by
  intro e he
  rw [lockPendingPublishChangesets] at h
  split_ifs at h with hmoved hmissing
  have hmoved' : changesetMoved s e ≠ true := fun hm => hmoved (List.any_eq_true.mpr ⟨e, he, hm⟩)
  have hmissing' : (s.changesets.get e.row.changeset).isNone ≠ true := fun hm =>
    hmissing (List.any_eq_true.mpr ⟨e, he, hm⟩)
  cases hc : s.changesets.get e.row.changeset with
  | none => simp [hc] at hmissing'
  | some c =>
    rw [changesetMoved, hc] at hmoved'
    exact ⟨c, rfl, by simpa using hmoved'⟩

/-- `insertPublishedCommitsTx`. -/
def insertPublishedCommits (commits : Table CommitID Commit) (entries : List PublishEntry) :
    Table CommitID Commit :=
  entries.foldl (fun commits e => commits.insertNew e.commitId e.commit) commits

/-- `markPendingPublishedTx`. -/
def markPendingPublished (now : Time) (entries : List PublishEntry) (rows : List PendingPublish) :
    List PendingPublish :=
  rows.map fun r =>
    match entries.find? fun e => e.row.sequence = r.sequence with
    | none => r
    | some e => { r with status := .published, commit := some e.commitId, updatedAt := now }

/-- `markChangesetsSubmittedTx`. -/
def markChangesetsSubmitted (now : Time) (entries : List PublishEntry)
    (changesets : Table ChangesetID Changeset) : Table ChangesetID Changeset :=
  changesets.update fun id c =>
    match entries.find? fun e => e.row.changeset = id with
    | none => c
    | some e => { c with status := .submitted, commit := some e.commitId, updatedAt := now }

/-- `commitPublishedPayload` of an entry. -/
def PublishEntry.payload (e : PublishEntry) : CommitPublished where
  commit := e.commitId
  baseCommit := e.baseCommit
  changeset := e.row.changeset
  patchset := e.row.patchset
  changedPaths := e.commit.changedPaths
  committedAt := e.commit.createdAt

/-- `build.CurrentCommitID` after the build. -/
def PendingPublishBuild.currentCommit (build : PendingPublishBuild) (original : CommitID) :
    CommitID :=
  (build.entries.getLast?.map PublishEntry.commitId).getD original

/-- The state after a finalize that publishes. -/
def publishBatch (s : State) (now : Time) (build : PendingPublishBuild) : State :=
  { s with
    commits := insertPublishedCommits s.commits build.entries
    pathHeads := applyPathHeadMutations s.pathHeads (build.entries.flatMap PublishEntry.mutations)
    pendingPublish := resetPendingPublishClaims now build.skipped
      (markPendingPublished now build.entries s.pendingPublish)
    changesets := markChangesetsSubmitted now build.entries s.changesets
    outbox := s.outbox ++ build.entries.map PublishEntry.payload
    ref := build.currentCommit s.ref }

/-- The state after a claim is given back. -/
def resetClaim (s : State) (now : Time) (claim : PendingPublishClaim) : State :=
  { s with pendingPublish := resetPendingPublishClaims now claim.ids s.pendingPublish }

/-- The commits land unless the ref or a changeset moved. -/
def finalizePendingPublishBatch (s : State) (now : Time) (claim : PendingPublishClaim)
    (build : PendingPublishBuild) : State × Except StoreError Unit :=
  if build.entries = [] then (resetClaim s now claim, .ok ())
  else if s.ref ≠ claim.originalCommit then (resetClaim s now claim, .error (.conflict ""))
  else
    match lockPendingPublishChangesets s build.entries with
    | .error (.conflict reason) => (resetClaim s now claim, .error (.conflict reason))
    | .error e => (s, .error e)
    | .ok () => (publishBatch s now build, .ok ())

/-- How a finalize ends: nothing changed, the claim given back, or the batch published. -/
theorem finalizePendingPublishBatch_cases (s : State) (now : Time) (claim : PendingPublishClaim)
    (build : PendingPublishBuild) :
    (∃ e, finalizePendingPublishBatch s now claim build = (s, .error e)) ∨
      (∃ r, finalizePendingPublishBatch s now claim build = (resetClaim s now claim, r)) ∨
      (build.entries ≠ [] ∧ s.ref = claim.originalCommit ∧
        lockPendingPublishChangesets s build.entries = .ok () ∧
        finalizePendingPublishBatch s now claim build = (publishBatch s now build, .ok ())) := by
  by_cases hentries : build.entries = []
  · exact .inr (.inl ⟨_, if_pos hentries⟩)
  by_cases href : s.ref = claim.originalCommit
  · rw [finalizePendingPublishBatch, if_neg hentries, if_neg (not_not_intro href)]
    split
    · exact .inr (.inl ⟨_, rfl⟩)
    · exact .inl ⟨_, rfl⟩
    · rename_i hlock
      exact .inr (.inr ⟨hentries, href, hlock, rfl⟩)
  · rw [finalizePendingPublishBatch, if_neg hentries, if_pos href]
    exact .inr (.inl ⟨_, rfl⟩)

end GitSlice
